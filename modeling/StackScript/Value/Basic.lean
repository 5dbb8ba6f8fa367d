import StackScript.Code.Instruction
import StackScript.Value.Key

/-!
# Values

The values of the language are immutable data, so that sharing a value cannot
be observed, with one exception: **functions have an identity**. Two functions
are equal only if they are the same function, however alike their code is. An
identity is a number, given out when the function comes into being: to a
routine when it is compiled, to a closure when the machine builds it.
-/

namespace StackScript

/-- **The builtin functions**, in the order of their indices. -/
inductive Builtin where
  /-- The length of a string, an array or a map. -/
  | len
  /-- Writes each argument on a line of its own. -/
  | puts
  /-- The first item of an array. -/
  | first
  /-- The last item of an array. -/
  | last
  /-- An array without its first item. -/
  | rest
  /-- An array with one more item. -/
  | push
deriving DecidableEq, Inhabited

namespace Builtin

/-- The builtin functions in the order of their indices. -/
def all : List Builtin := [len, puts, first, last, rest, push]

/-- The builtin function of an index. -/
def ofIndex? (index : Nat) : Option Builtin := all[index]?

/-- The name of a builtin function. -/
def name : Builtin → String
  | len => "len"
  | puts => "puts"
  | first => "first"
  | last => "last"
  | rest => "rest"
  | push => "push"

end Builtin

/-- **The compiled body of a function literal.** -/
structure Routine where
  /-- Which routine this is. -/
  identity : Nat
  /-- The instructions of the body. -/
  code : Code
  /-- The stack slots for parameters and for bindings in the body. -/
  locals : Nat
  /-- The number of parameters. -/
  params : Nat
deriving DecidableEq, Inhabited

/-- **What a closure can run**: a body that takes so many arguments. -/
class Callable (β : Type) where
  /-- The number of parameters. -/
  params : β → Nat

instance : Callable Routine := ⟨Routine.params⟩

/-- **A value of the language.** What a closure runs is a parameter: on the
machine it is a routine. -/
inductive Value (β : Type := Routine) where
  /-- A number. -/
  | number (value : Number)
  /-- A truth value. -/
  | boolean (value : Bool)
  /-- A string. -/
  | string (value : String)
  /-- Nothing. -/
  | null
  /-- An array. -/
  | array (items : List (Value β))
  /-- A map, its entries in the order of insertion. -/
  | map (entries : List (Key × Value β))
  /-- A routine, which is no callable function yet. -/
  | routine (body : Routine)
  /-- A body with the values it captured, and the identity of the closure. -/
  | closure (identity : Nat) (body : β) (captured : List (Value β))
  /-- A builtin function. -/
  | builtin (function : Builtin)

instance {β : Type} : Inhabited (Value β) := ⟨.null⟩

/-- **The types that messages name.** -/
inductive ValueType where
  /-- Numbers. -/
  | number
  /-- Truth values. -/
  | boolean
  /-- Strings. -/
  | string
  /-- The type of null. -/
  | null
  /-- Arrays. -/
  | array
  /-- Maps. -/
  | map
  /-- Routines. -/
  | function
  /-- Closures. -/
  | closure
  /-- Builtin functions. -/
  | builtin
deriving DecidableEq, Inhabited

/-- The name of a type. -/
def ValueType.name : ValueType → String
  | number => "number"
  | boolean => "boolean"
  | string => "string"
  | null => "null"
  | array => "array"
  | map => "map"
  | function => "function"
  | closure => "closure"
  | builtin => "builtin"

namespace Value

variable {β : Type}

/-- The type of a value. -/
def type : Value β → ValueType
  | number _ => .number
  | boolean _ => .boolean
  | string _ => .string
  | null => .null
  | array _ => .array
  | map _ => .map
  | routine _ => .function
  | closure .. => .closure
  | builtin _ => .builtin

/-- **Whether a value counts as true**: all do but falsehood and null. -/
def truthy : Value β → Bool
  | boolean b => b
  | null => false
  | _ => true

/-- The key that a value is, if it can be one. -/
def key? : Value β → Option Key
  | number n => some (.number n)
  | boolean b => some (.boolean b)
  | string s => some (.string s)
  | _ => none

/-- The value that a key is. -/
def ofKey : Key → Value β
  | .number n => number n
  | .boolean b => boolean b
  | .string s => string s

/-- **The key that a value is looked up by**, if it can be one: the same for all
keys that find the same entry. -/
def hashKey? (v : Value β) : Option Key := v.key?.map Key.canonical

/-! ## Equality -/

mutual

/-- **Equality as programs see it**: numbers by their value, data by its
structure, functions by their identity. Maps are equal if they have equal values
under the same keys, in whatever order. -/
def equal : Value β → Value β → Bool
  | number a, number b => a.equal b
  | boolean a, boolean b => a == b
  | string a, string b => a == b
  | null, null => true
  | array xs, array ys => equalItems xs ys
  | map xs, map ys => xs.length == ys.length && equalEntries xs ys
  | routine a, routine b => a.identity == b.identity
  | closure a _ _, closure b _ _ => a == b
  | builtin a, builtin b => a == b
  | _, _ => false

/-- Whether items are equal one by one. -/
def equalItems : List (Value β) → List (Value β) → Bool
  | [], [] => true
  | x :: xs, y :: ys => equal x y && equalItems xs ys
  | _, _ => false

/-- Whether each entry has an equal value under the same key among the
others. The recursion is on the entries, so their values come first; to maps that
programs build it makes no difference which of the two does. -/
def equalEntries : List (Key × Value β) → List (Key × Value β) → Bool
  | [], _ => true
  | (key, x) :: xs, ys =>
    (match Entries.find? key ys with
      | some y => equal x y
      | none => false) && equalEntries xs ys

end

end Value

namespace Entries

variable {β : Type}

/-- **Inserts under a value**: whether it can be a key, and the entries
afterwards. Under a value that can be no key nothing is inserted. -/
def put (key value : Value β) (entries : Entries (Value β)) : Bool × Entries (Value β) :=
  match key.key? with
  | some k => (true, insert k value entries)
  | none => (false, entries)

/-- The entries with their keys as values. -/
def pairs (entries : Entries (Value β)) : List (Value β × Value β) :=
  entries.map fun entry => (.ofKey entry.1, entry.2)

end Entries

namespace Value

variable {β : Type}

/-! ## Text -/

variable [Callable β]

mutual

/-- **The text of a value.** A string is its own text, also inside an array or a
map. -/
def text : Value β → String
  | number n => n.text
  | boolean b => if b then "true" else "false"
  | string s => s
  | null => "null"
  | array items => "[" ++ ", ".intercalate (itemTexts items) ++ "]"
  | map entries => "\x7b" ++ ", ".intercalate (entryTexts entries) ++ "\x7d"
  | routine body => s!"fn/{body.params}"
  | closure _ body _ => s!"closure/{Callable.params body}"
  | builtin b => "builtin " ++ b.name

/-- The texts of items. -/
def itemTexts : List (Value β) → List String
  | [] => []
  | x :: xs => text x :: itemTexts xs

/-- The texts of entries, key before value. -/
def entryTexts : List (Key × Value β) → List String
  | [] => []
  | (key, x) :: xs => (key.text ++ ": " ++ text x) :: entryTexts xs

end

end Value

end StackScript
