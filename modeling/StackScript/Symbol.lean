import StackScript.Value.Basic

/-!
# Names and where their values live

Names are bound in nested **scopes**: one for the top level, and one for each
function literal around the place being compiled. A `Symbol` says where the value
of a name will be found when the code runs.

A name of the top level, or of a builtin function, is found in the same place
from everywhere. A name bound in an enclosing function is not: the closure has to
**capture** its value when it is built, and so has each closure in between.
`SymbolTable.resolve` makes these captures as it looks a name up. A capture is
bound in the scope that made it, so that no name is captured twice.
-/

namespace StackScript

/-- **Where the value of a name lives.** -/
inductive Storage where
  /-- In a global variable. -/
  | global
  /-- In a slot of the frame being run. -/
  | frame
  /-- Among the builtin functions. -/
  | builtin
  /-- Among the values that the closure being run has captured. -/
  | captured
  /-- It is the closure being run. -/
  | itself
deriving DecidableEq, Inhabited

/-- Whether a place is the same seen from every function. -/
def Storage.isShared : Storage → Bool
  | global | builtin => true
  | _ => false

/-- **A name, and where its value lives.** -/
structure Symbol where
  /-- The name. -/
  name : String
  /-- The kind of place. -/
  storage : Storage
  /-- Which place of that kind. -/
  index : Nat
deriving DecidableEq, Inhabited

/-- **The names of one function**, or of the top level. -/
structure Scope where
  /-- The bindings, the newest first; an older binding of a name is hidden. -/
  bindings : List Symbol
  /-- The number of variables bound so far. -/
  definitions : Nat
  /-- What the closure captures: for each captured value, where the enclosing
  function finds it. -/
  captures : Array Symbol
deriving DecidableEq, Inhabited

namespace Scope

/-- A scope without names. -/
def empty : Scope := ⟨[], 0, #[]⟩

/-- The binding of a name in a scope. -/
def find? (s : Scope) (name : String) : Option Symbol :=
  s.bindings.find? fun symbol => symbol.name == name

/-- The scope with one more binding. -/
def bind (s : Scope) (symbol : Symbol) : Scope :=
  { s with bindings := symbol :: s.bindings }

/-- **Captures what the enclosing function finds as a symbol**: the symbol it has
here, and the scope afterwards. -/
def capture (s : Scope) (source : Symbol) : Symbol × Scope :=
  let symbol : Symbol := ⟨source.name, .captured, s.captures.size⟩
  (symbol, { s.bind symbol with captures := s.captures.push source })

end Scope

/-- **The scopes around a place**: the innermost, and those around it from the
inside out. -/
structure SymbolTable where
  /-- The innermost scope. -/
  inner : Scope
  /-- The scopes around it, the nearest first. -/
  outer : List Scope
deriving DecidableEq, Inhabited

namespace SymbolTable

/-- The top level, without names. -/
def empty : SymbolTable := ⟨.empty, []⟩

/-- Whether the innermost scope is the top level. -/
def isGlobal (t : SymbolTable) : Bool := t.outer.isEmpty

/-- The table inside one more function. -/
def enter (t : SymbolTable) : SymbolTable := ⟨.empty, t.inner :: t.outer⟩

/-- The table outside of the innermost function, if there is one. -/
def leave? (t : SymbolTable) : Option SymbolTable :=
  match t.outer with
  | [] => none
  | inner :: outer => some ⟨inner, outer⟩

/-- The table with one more binding in the innermost scope. -/
def bind (t : SymbolTable) (symbol : Symbol) : SymbolTable :=
  { t with inner := t.inner.bind symbol }

/-- **Binds a name to a new variable** of the innermost scope. -/
def define (t : SymbolTable) (name : String) : Symbol × SymbolTable :=
  let storage := if t.isGlobal then .global else .frame
  let symbol : Symbol := ⟨name, storage, t.inner.definitions⟩
  let inner := t.inner.bind symbol
  (symbol, { t with inner := { inner with definitions := inner.definitions + 1 } })

/-- Binds a name to the builtin function of an index. -/
def defineBuiltin (t : SymbolTable) (index : Nat) (name : String) : Symbol × SymbolTable :=
  let symbol : Symbol := ⟨name, .builtin, index⟩
  (symbol, t.bind symbol)

/-- Binds a name to the function of the innermost scope. -/
def defineItself (t : SymbolTable) (name : String) : Symbol × SymbolTable :=
  let symbol : Symbol := ⟨name, .itself, 0⟩
  (symbol, t.bind symbol)

/-- Looks a name up from a scope outwards, capturing on the way back: the symbol
it has in the scope, and the scopes afterwards. -/
def resolveFrom (name : String) (inner : Scope) :
    List Scope → Option (Symbol × Scope × List Scope)
  | [] => (inner.find? name).map fun symbol => (symbol, inner, [])
  | next :: rest =>
    match inner.find? name with
    | some symbol => some (symbol, inner, next :: rest)
    | none =>
      match resolveFrom name next rest with
      | none => none
      | some (symbol, next, rest) =>
        if symbol.storage.isShared then some (symbol, inner, next :: rest)
        else
          let (symbol, inner) := inner.capture symbol
          some (symbol, inner, next :: rest)

/-- **Looks a name up**, making the captures that its value needs. A name that is
bound nowhere changes nothing. -/
def resolve (t : SymbolTable) (name : String) : Option (Symbol × SymbolTable) :=
  (resolveFrom name t.inner t.outer).map fun (symbol, inner, outer) => (symbol, ⟨inner, outer⟩)

/-- **The table that programs start from**: the top level, with the builtin
functions. -/
def initial : SymbolTable :=
  Builtin.all.zipIdx.foldl (fun t (b, index) => (t.defineBuiltin index b.name).2) empty

end SymbolTable

end StackScript
