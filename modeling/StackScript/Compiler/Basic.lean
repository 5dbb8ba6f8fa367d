import StackScript.Bytecode
import StackScript.Compiler.Error
import StackScript.Compiler.Fragment
import StackScript.Symbol
import StackScript.Syntax.Basic

/-!
# Compiling programs

A program is compiled in one pass: each construct appends its instructions to the
fragment being written, and leaves its value on the stack of the machine that
will run them. A function literal opens a fragment and a scope of its own; the
finished code goes into the pool of constants, and what is appended outside is an
instruction that builds the closure.

Compiling is a computation in `Compile`, which changes the compiler and may fail.
A failure leaves the compiler as it was at that moment, with the functions open
that were being compiled. Whoever wants to go on from the state before keeps it.

## Limits

Operands have one or two bytes, so there are at most 65536 constants and globals
and jumps reach no further than offset 65535, while the locals and the captured
values of one function, and the arguments of a call, are counted in one byte.
-/

namespace StackScript

/-- **The state of the compiler.** -/
structure Compiler where
  /-- The pool of constants so far. -/
  constants : Array Value
  /-- The names that can be seen. -/
  symbols : SymbolTable
  /-- The code of the innermost function being compiled. -/
  fragment : Fragment
  /-- The code of the functions around it, the nearest first. -/
  outer : List Fragment
deriving Inhabited

namespace Compiler

/-- **A compiler that goes on from some names and constants.** -/
def withState (symbols : SymbolTable) (constants : Array Value) : Compiler :=
  ⟨constants, symbols, .empty, []⟩

/-- A compiler at the start. -/
def initial : Compiler := withState .initial #[]

/-- The code of the innermost function with the constants so far; of the top
level, if no function is open. -/
def bytecode (c : Compiler) : Bytecode := ⟨c.fragment.code, c.constants⟩

end Compiler

/-- **A computation of the compiler.** -/
abbrev Compile := EStateM CompileError Compiler

namespace Compile

/-- Fails with a fault at a span. -/
def fail {α : Type} (fault : CompileFault) (span : Span) : Compile α := throw ⟨fault, span⟩

/-- A number as an operand of one byte. -/
def narrow (n : Nat) (fault : CompileFault) (span : Span) : Compile UInt8 :=
  if n < 256 then pure (UInt8.ofNat n) else fail fault span

/-- A number as an operand of two bytes. -/
def wide (n : Nat) (fault : CompileFault) (span : Span) : Compile UInt16 :=
  if n < 65536 then pure (UInt16.ofNat n) else fail fault span

/-! ## Writing code -/

/-- Changes the fragment being written. -/
def modifyFragment (f : Fragment → Fragment) : Compile Unit :=
  modify fun c => { c with fragment := f c.fragment }

/-- Appends an instruction. -/
def emit (i : Instruction) : Compile Unit := modifyFragment fun f => f.emit i

/-- Appends a jump that waits for its target. -/
def emitJump : Compile Label :=
  modifyGet fun c =>
    let (fragment, label) := c.fragment.emitJump
    (label, { c with fragment })

/-- Appends a conditional jump that waits for its target. -/
def emitJumpNotTruthy : Compile Label :=
  modifyGet fun c =>
    let (fragment, label) := c.fragment.emitJumpNotTruthy
    (label, { c with fragment })

/-- Whether the last instruction has some opcode. -/
def lastIs (op : Op) : Compile Bool := return (← get).fragment.lastIs op

/-- Makes the last instruction return a value. -/
def returnLast (span : Span) : Compile Unit := fun c =>
  match c.fragment.replaceLast? .returnValue with
  | some fragment => .ok () { c with fragment }
  | none => .error ⟨.corrupted, span⟩ c

/-- Makes a waiting jump land at the end of the code. -/
def bind (label : Label) (span : Span) : Compile Unit := fun c =>
  match c.fragment.bind label with
  | .ok fragment => .ok () { c with fragment }
  | .error (.targetOutOfRange target) => .error ⟨.jumpOutOfRange target, span⟩ c
  | .error .operandMissing => .error ⟨.corrupted, span⟩ c

/-! ## Constants -/

/-- Whether a constant of the pool is the same literal as a value: the same bits
of a number, or the same string. -/
def sameLiteral (v constant : Value) : Bool :=
  match v, constant with
  | .number a, .number b => a == b
  | .string a, .string b => a == b
  | _, _ => false

/-- **The index of a literal in the pool**, which it joins if it is not there. -/
def literal (v : Value) (span : Span) : Compile UInt16 := do
  match (← get).constants.findIdx? (sameLiteral v) with
  | some index => wide index .tooManyConstants span
  | none =>
    let index ← modifyGet fun c =>
      (c.constants.size, { c with constants := c.constants.push v })
    wide index .tooManyConstants span

/-- **The index of a new routine in the pool**, which is also its identity. -/
def addRoutine (code : Code) (locals params : Nat) (span : Span) : Compile UInt16 := do
  let index ← modifyGet fun c =>
    let index := c.constants.size
    (index, { c with constants := c.constants.push (.routine ⟨index, code, locals, params⟩) })
  wide index .tooManyConstants span

/-! ## Names -/

/-- Binds a name to a new variable. -/
def define (name : String) : Compile Symbol :=
  modifyGet fun c =>
    let (symbol, symbols) := c.symbols.define name
    (symbol, { c with symbols })

/-- Binds names to new variables, in order. -/
def defineAll : List Ident → Compile Unit
  | [] => pure ()
  | name :: rest => do
    let _ ← define name.name
    defineAll rest

/-- Binds a name to the function being compiled. -/
def defineItself (name : String) : Compile Unit :=
  modify fun c => { c with symbols := (c.symbols.defineItself name).2 }

/-- Appends the instruction that pushes the value of a symbol. -/
def load (symbol : Symbol) (span : Span) : Compile Unit := do
  match symbol.storage with
  | .global => emit (.getGlobal (← wide symbol.index .tooManyGlobals span))
  | .frame => emit (.getLocal (← narrow symbol.index (.slotOutOfRange symbol.name) span))
  | .builtin => emit (.getBuiltin (← narrow symbol.index (.slotOutOfRange symbol.name) span))
  | .captured => emit (.getFree (← narrow symbol.index (.slotOutOfRange symbol.name) span))
  | .itself => emit .currentClosure

/-- Appends the instructions that push the values of symbols. -/
def loadAll (span : Span) : List Symbol → Compile Unit
  | [] => pure ()
  | symbol :: rest => do
    load symbol span
    loadAll span rest

/-- The symbol of a name that is used. -/
def resolve (name : String) (span : Span) : Compile Symbol := fun c =>
  match c.symbols.resolve name with
  | some (symbol, symbols) => .ok symbol { c with symbols }
  | none => .error ⟨.undefinedVariable name, span⟩ c

/-- Appends the instruction that pops a value into the variable of a name just
bound. -/
def store (symbol : Symbol) (span : Span) : Compile Unit := do
  match symbol.storage with
  | .global => emit (.setGlobal (← wide symbol.index .tooManyGlobals span))
  | _ => emit (.setLocal (← narrow symbol.index .tooManyLocals span))

/-! ## Functions -/

/-- Whether no function is open. -/
def atTopLevel : Compile Bool := return (← get).outer.isEmpty

/-- Opens a function. -/
def enterFunction : Compile Unit :=
  modify fun c =>
    { c with symbols := c.symbols.enter, fragment := .empty, outer := c.fragment :: c.outer }

/-- Opens a function and binds its names: its own, if it has one, and those of its
parameters. -/
def openFunction (name : Option String) (params : List Ident) : Compile Unit := do
  enterFunction
  match name with
  | some name => defineItself name
  | none => pure ()
  defineAll params

/-- Ends the code of a function: the value of a last expression statement is
returned instead of discarded, and a body that does not end in a return returns
null. -/
def finishBody (span : Span) : Compile Unit := do
  if ← lastIs .pop then returnLast span
  if !(← lastIs .returnValue) then emit .returnNull

/-- **Closes the innermost function**: its code, what it captures, and the number
of its variables. -/
def leaveFunction (span : Span) : Compile (Code × Array Symbol × Nat) := fun c =>
  match c.symbols.leave?, c.outer with
  | some symbols, fragment :: outer =>
    let scope := c.symbols.inner
    .ok (c.fragment.code, scope.captures, scope.definitions) { c with symbols, fragment, outer }
  | _, _ => .error ⟨.corrupted, span⟩ c

/-- Closes the innermost function and appends the instructions that build its
closure. -/
def buildClosure (params : Nat) (span : Span) : Compile Unit := do
  let (code, captures, locals) ← leaveFunction span
  let captured ← narrow captures.size .tooManyCaptures span
  loadAll span captures.toList
  emit (.makeClosure (← addRoutine code locals params span) captured)

/-- Ends the code of a branch: the value of a last expression statement stays on
the stack, and any other branch has the value null. -/
def finishBranch (block : Block) (f : Fragment) : Fragment :=
  match block.body.getLast? with
  | some (.expr ..) => if f.lastIs .pop then f.dropLast else f.emit .pushNull
  | _ => f.emit .pushNull

/-- The instruction of an operator before its operand. -/
def unaryInstruction : UnaryOp → Instruction
  | .not => .bang
  | .negate => .negate

/-- The instruction of an operator between its operands; for "less than" the
operands are pushed in the other order. -/
def binaryInstruction : BinaryOp → Instruction
  | .add => .add
  | .sub => .sub
  | .mul => .mul
  | .div => .div
  | .less | .greater => .greaterThan
  | .equal => .equal
  | .notEqual => .notEqual

/-! ## Programs -/

mutual

/-- **Compiles an expression.** -/
def expr : Expr → Compile Unit
  | .ident name span => do load (← resolve name span) span
  | .number n span => do
    if n.isFinite then emit (.constant (← literal (.number n) span))
    else fail (.malformedNumber n) span
  | .boolean true _ => emit .pushTrue
  | .boolean false _ => emit .pushFalse
  | .string s span => do emit (.constant (← literal (.string s) span))
  | .unary op operand _ => do
    expr operand
    emit (unaryInstruction op)
  | .binary .less left right _ => do
    expr right
    expr left
    emit (binaryInstruction .less)
  | .binary op left right _ => do
    expr left
    expr right
    emit (binaryInstruction op)
  | .cond test yes no span => do
    expr test
    let toNo ← emitJumpNotTruthy
    branch yes
    let toEnd ← emitJump
    bind toNo span
    match no with
    | some block => branch block
    | none => emit .pushNull
    bind toEnd span
  | .function name params (.mk body _) span => do
    if 255 < params.length then fail .tooManyParameters span
    openFunction name params
    statements body
    finishBody span
    buildClosure params.length span
  | .call callee args span => do
    expr callee
    exprs args
    emit (.call (← narrow args.length .tooManyArguments span))
  | .array items span => do
    exprs items
    emit (.makeArray (← wide items.length .arrayTooLong span))
  | .index container key _ => do
    expr container
    expr key
    emit .index
  | .map entries span => do
    pairs entries
    emit (.makeMap (← wide (2 * entries.length) .mapTooLong span))

/-- Compiles expressions in order. -/
def exprs : List Expr → Compile Unit
  | [] => pure ()
  | e :: rest => do
    expr e
    exprs rest

/-- Compiles keys and values in order. -/
def pairs : List (Expr × Expr) → Compile Unit
  | [] => pure ()
  | (key, value) :: rest => do
    expr key
    expr value
    pairs rest

/-- Compiles a branch of a conditional, which leaves one value. -/
def branch : Block → Compile Unit
  | .mk body span => do
    statements body
    modifyFragment (finishBranch (.mk body span))

/-- **Compiles a statement**, which leaves nothing on the stack. -/
def statement : Stmt → Compile Unit
  | .expr value _ => do
    expr value
    emit .pop
  | .bind name value _ => do
    expr value
    store (← define name.name) name.span
  | .ret value span => do
    if ← atTopLevel then fail .returnOutsideFunction span
    expr value
    emit .returnValue

/-- Compiles statements in order. -/
def statements : List Stmt → Compile Unit
  | [] => pure ()
  | s :: rest => do
    statement s
    statements rest

end

end Compile

/-- **Compiles a program** on from some state: the state afterwards, and the
error if it failed. -/
def Compiler.compile (c : Compiler) (program : List Stmt) : Except CompileError Unit × Compiler :=
  match Compile.statements program c with
  | .ok _ c => (.ok (), c)
  | .error e c => (.error e, c)

end StackScript
