import StackScript.Machine.Operation
import StackScript.Syntax.Basic

/-!
# The meaning of programs

What a program means is said here without code, stack or frames: an evaluator
goes over the syntax tree and computes the values of its expressions. It shares
with the machine the values and what the operators and the builtin functions
make of them, and nothing else.

## Names

A function has **binders**: its own name, its parameters and its bindings,
wherever in the body they stand. They are numbered in the order in which they
are visited, and of several binders of one name the latest visited counts. A
branch that is not taken is visited all the same (`Names.skipBranch`): its
binders hide those before it, and their variables are null.

A name that the function does not bind is looked up in the functions around it,
as they were when the function literal was evaluated, then among the globals
that could be seen there, then among the builtin functions. A closure keeps the
values of the variables around it, but not those of globals: these it reads when
it runs.

## Calls

The evaluator goes as many calls deep as it is told to; when that is not enough,
its answer is `Signal.tooDeep`.
-/

namespace StackScript

/-- **What a name is bound to in a function**, or at the top level. -/
inductive Binder where
  /-- A variable: a parameter or a binding, numbered in the order of the
  visit. -/
  | site (number : Nat)
  /-- The function itself. -/
  | itself
deriving DecidableEq

/-- **The names that a function has bound so far**, or the top level. -/
structure Names where
  /-- The binders, the latest first. -/
  bound : List (String × Binder)
  /-- The number of variables. -/
  sites : Nat
deriving DecidableEq

/-! ## Visits -/

namespace Names

/-- The names of a function without any. -/
def empty : Names := ⟨[], 0⟩

/-- Binds a name to a new variable. -/
def bind (ns : Names) (name : String) : Names :=
  ⟨(name, .site ns.sites) :: ns.bound, ns.sites + 1⟩

/-- Binds names to new variables, in order. -/
def bindAll (ns : Names) : List Ident → Names
  | [] => ns
  | x :: rest => (ns.bind x.name).bindAll rest

/-- **The names at the beginning of a function's body.** -/
def ofFunction (name : Option String) (params : List Ident) : Names :=
  match name with
  | some name => bindAll ⟨[(name, .itself)], 0⟩ params
  | none => bindAll empty params

mutual

/-- **The names after an expression.** A function literal binds nothing outside
of itself. -/
def skip (ns : Names) : Expr → Names
  | .ident .. | .number .. | .boolean .. | .string .. | .function .. => ns
  | .unary _ operand _ => ns.skip operand
  | .binary .less left right _ => (ns.skip right).skip left
  | .binary _ left right _ => (ns.skip left).skip right
  | .cond test yes no _ => ((ns.skip test).skipBranch yes).skipOther no
  | .call callee args _ => (ns.skip callee).skipAll args
  | .array items _ => ns.skipAll items
  | .index container key _ => (ns.skip container).skip key
  | .map entries _ => ns.skipPairs entries

/-- The names after expressions. -/
def skipAll (ns : Names) : List Expr → Names
  | [] => ns
  | e :: rest => (ns.skip e).skipAll rest

/-- The names after keys and values. -/
def skipPairs (ns : Names) : List (Expr × Expr) → Names
  | [] => ns
  | (key, value) :: rest => ((ns.skip key).skip value).skipPairs rest

/-- The names after a branch that is there. -/
def skipBranch (ns : Names) : Block → Names
  | .mk body _ => ns.skipBlock body

/-- The names after a branch that may be missing. -/
def skipOther (ns : Names) : Option Block → Names
  | some block => ns.skipBranch block
  | none => ns

/-- The names after statements. -/
def skipBlock (ns : Names) : List Stmt → Names
  | [] => ns
  | s :: rest => (ns.skipStmt s).skipBlock rest

/-- The names after a statement. -/
def skipStmt (ns : Names) : Stmt → Names
  | .expr value _ | .ret value _ => ns.skip value
  | .bind name value _ => (ns.skip value).bind name.name

end

end Names

/-! ## Functions and states -/

/-- **A function as the evaluator has it**: the literal, and the names that
could be seen where it stands. The values of the names of the functions around
it are in the closure. -/
structure Lambda where
  /-- The name that the function has for itself. -/
  name : Option String
  /-- The parameters. -/
  params : List Ident
  /-- The statements of the body. -/
  body : List Stmt
  /-- The names of the functions around it, the nearest first. -/
  around : List String
  /-- The globals. -/
  globals : List (String × Binder)

instance : Callable Lambda := ⟨fun f => f.params.length⟩

/-- **What all functions share.** -/
structure World where
  /-- The values of the global variables. -/
  globals : Nat → Value Lambda
  /-- The identity that the next closure will have. -/
  nextIdentity : Nat
  /-- What has been written. -/
  output : String

/-- **A function being evaluated**, or the top level. -/
structure Activation where
  /-- The names bound so far. -/
  names : Names
  /-- The values of its variables; those of the top level are in the world. -/
  locals : Nat → Value Lambda
  /-- The function itself. -/
  self : Value Lambda
  /-- The names of the functions around it with their values. -/
  around : List (String × Value Lambda)
  /-- The globals that can be seen; nothing at the top level, where they are the
  names. -/
  globals : Option (List (String × Binder))

/-- **A state of the evaluator.** -/
structure EvalState where
  /-- The function being evaluated. -/
  here : Activation
  /-- What all functions share. -/
  world : World

/-- **Why an evaluation has no value.** -/
inductive Signal where
  /-- A run-time error. -/
  | error (cause : RuntimeError)
  /-- The function returns. -/
  | returned (value : Value Lambda)
  /-- More calls were nested than the evaluator was told to follow. -/
  | tooDeep
  /-- A name is bound nowhere. -/
  | unbound (name : String)

/-- **An evaluation.** -/
abbrev Eval := EStateM Signal EvalState

/-- The variables after setting one. -/
def setVariable (values : Nat → Value Lambda) (n : Nat) (v : Value Lambda) :
    Nat → Value Lambda :=
  fun i => if i = n then v else values i

/-- The builtin function of a name. -/
def Builtin.ofName? (name : String) : Option Builtin :=
  Builtin.all.find? fun b => b.name == name

namespace EvalState

/-- The value of a binder of the function being evaluated. -/
def read (s : EvalState) : Binder → Value Lambda
  | .site n => if s.here.globals.isNone then s.world.globals n else s.here.locals n
  | .itself => s.here.self

/-- The value of a global variable. -/
def readGlobal (s : EvalState) : Binder → Value Lambda
  | .site n => s.world.globals n
  | .itself => .null

/-- **The value of a name.** -/
def lookup (s : EvalState) (name : String) : Option (Value Lambda) :=
  match s.here.names.bound.lookup name with
  | some binder => some (s.read binder)
  | none =>
    match s.here.around.lookup name with
    | some v => some v
    | none =>
      match (s.here.globals.getD []).lookup name with
      | some binder => some (s.readGlobal binder)
      | none => (Builtin.ofName? name).map .builtin

/-- The state with the names changed. -/
def rename (s : EvalState) (f : Names → Names) : EvalState :=
  { s with here := { s.here with names := f s.here.names } }

/-- **The state with a name bound to a new variable** that has a value. -/
def bind (s : EvalState) (name : String) (v : Value Lambda) : EvalState :=
  let n := s.here.names.sites
  let s := s.rename fun ns => ns.bind name
  if s.here.globals.isNone then
    { s with world := { s.world with globals := setVariable s.world.globals n v } }
  else { s with here := { s.here with locals := setVariable s.here.locals n v } }

/-- The names that a function literal finds around it, with their values. -/
def surroundings (s : EvalState) : List (String × Value Lambda) :=
  if s.here.globals.isNone then []
  else (s.here.names.bound.map fun (name, binder) => (name, s.read binder)) ++ s.here.around

/-- **The closure of a function literal**, and the state afterwards. -/
def close (s : EvalState) (name : Option String) (params : List Ident) (body : List Stmt) :
    Value Lambda × EvalState :=
  let around := s.surroundings
  let f : Lambda :=
    { name, params, body
      around := around.map (·.1)
      globals := s.here.globals.getD s.here.names.bound }
  (.closure s.world.nextIdentity f (around.map (·.2)),
    { s with world := { s.world with nextIdentity := s.world.nextIdentity + 1 } })

end EvalState

/-- A function at the beginning of its body. -/
def Lambda.activation (f : Lambda) (self : Value Lambda) (captured args : List (Value Lambda)) :
    Activation :=
  { names := .ofFunction f.name f.params
    locals := fun i => args[i]?.getD .null
    self
    around := f.around.zip captured
    globals := some f.globals }

/-! ## The evaluator -/

namespace Eval

/-- The evaluation ends with a run-time error. -/
def fail {α : Type} (cause : RuntimeError) : Eval α := throw (.error cause)

/-- The result of an operation on values. -/
def ofExcept {α : Type} : Except RuntimeError α → Eval α
  | .ok a => pure a
  | .error cause => fail cause

/-- The value of a name. -/
def name (x : String) : Eval (Value Lambda) := do
  match (← get).lookup x with
  | some v => pure v
  | none => throw (.unbound x)

/-- Evaluates in a function of its own, which a return ends. -/
def within (here : Activation) (x : Eval (Value Lambda)) : Eval (Value Lambda) := fun s =>
  match x ⟨here, s.world⟩ with
  | .ok v s' => .ok v { s with world := s'.world }
  | .error (.returned v) s' => .ok v { s with world := s'.world }
  | .error signal s' => .error signal { s with world := s'.world }

section

variable (call : Value Lambda → List (Value Lambda) → Eval (Value Lambda))

mutual

/-- **Evaluates an expression.** Its parts are evaluated in the order in which
they stand, but for "less than", which evaluates its right operand first. -/
def expr : Expr → Eval (Value Lambda)
  | .ident x _ => name x
  | .number n _ => pure (.number n)
  | .boolean b _ => pure (.boolean b)
  | .string s _ => pure (.string s)
  | .unary op operand _ => do ofExcept (Value.unary op (← expr operand))
  | .binary .less left right _ => do
    let y ← expr right
    let x ← expr left
    ofExcept (Value.binary .less x y)
  | .binary op left right _ => do
    let x ← expr left
    let y ← expr right
    ofExcept (Value.binary op x y)
  | .cond test yes no _ => do
    if (← expr test).truthy then
      let v ← branch yes
      modify fun s => s.rename fun ns => ns.skipOther no
      pure v
    else
      modify fun s => s.rename fun ns => ns.skipBranch yes
      other no
  | .function name params (.mk body _) _ => modifyGet fun s => s.close name params body
  | .call callee args _ => do
    let f ← expr callee
    call f (← exprs args)
  | .array items _ => do pure (.array (← exprs items))
  | .index container key _ => do
    let c ← expr container
    let k ← expr key
    ofExcept (Value.lookup c k)
  | .map entries _ => do
    let items ← pairs entries
    let entries ← ofExcept (Value.insertAll [] items)
    pure (.map entries)

/-- Evaluates expressions in order. -/
def exprs : List Expr → Eval (List (Value Lambda))
  | [] => pure []
  | e :: rest => do
    let v ← expr e
    let vs ← exprs rest
    pure (v :: vs)

/-- Evaluates keys and values in order. -/
def pairs : List (Expr × Expr) → Eval (List (Value Lambda))
  | [] => pure []
  | (key, value) :: rest => do
    let k ← expr key
    let v ← expr value
    let vs ← pairs rest
    pure (k :: v :: vs)

/-- Evaluates a branch that is there. -/
def branch : Block → Eval (Value Lambda)
  | .mk body _ => block body

/-- Evaluates a branch that may be missing. -/
def other : Option Block → Eval (Value Lambda)
  | some block => branch block
  | none => pure .null

/-- **Evaluates statements for their value**: the value of a last expression,
otherwise null. -/
def block : List Stmt → Eval (Value Lambda)
  | [] => pure .null
  | [.expr value _] => expr value
  | s :: rest => do
    stmt s
    block rest

/-- **Executes a statement.** -/
def stmt : Stmt → Eval Unit
  | .expr value _ => do let _ ← expr value
  | .bind name value _ => do
    let v ← expr value
    modify fun s => s.bind name.name v
  | .ret value _ => do throw (.returned (← expr value))

end

end

/-- **Calls a function with arguments**, going so many calls deep. -/
def callAt (depth : Nat) (f : Value Lambda) (args : List (Value Lambda)) :
    Eval (Value Lambda) :=
  match f with
  | .closure _ body captured =>
    if args.length ≠ body.params.length then fail (.wrongArity body.params.length args.length)
    else
      match depth with
      | 0 => throw .tooDeep
      | depth + 1 => within (body.activation f captured args) (block (callAt depth) body.body)
  | .builtin b => do
    let v ← ofExcept (b.call args)
    modify fun s => { s with world := { s.world with output := s.world.output ++ b.output args } }
    pure v
  | v => fail (.notAFunction v.type)

/-- **Evaluates a program**: the top level starts without names, and all globals
are null. The first closure has the given identity. -/
def program (depth identity : Nat) (statements : List Stmt) :
    EStateM.Result Signal EvalState (Value Lambda) :=
  block (callAt depth) statements
    ⟨⟨.empty, fun _ => .null, .null, [], none⟩, ⟨fun _ => .null, identity, ""⟩⟩

end Eval

end StackScript
