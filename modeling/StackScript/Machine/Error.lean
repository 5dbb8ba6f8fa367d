import StackScript.Syntax.Operator
import StackScript.Value.Basic

/-!
# Run-time errors

What can go wrong while code runs. A program that came out of the compiler can
meet the errors of values: operands of the wrong type, calls of what is no
function, a stack or a budget that is too small. The others tell of code that no
compiler would write: operands that point nowhere, bytes that are no
instruction, a stack that runs empty.
-/

namespace StackScript

/-- **Why a builtin function refuses its argument.** -/
inductive ArgumentError where
  /-- It takes an array and was given something else. -/
  | notAnArray (given : ValueType)
  /-- It takes values of several types, but not of this one. -/
  | notSupported (given : ValueType)
deriving DecidableEq

/-- The wording of a refused argument. -/
def ArgumentError.message : ArgumentError → String
  | notAnArray t => s!"argument must be array, got {t.name}"
  | notSupported t => s!"argument not supported, got {t.name}"

/-- **What goes wrong while code runs.** -/
inductive RuntimeError where
  /-- An operator that does not take operands of these two types. -/
  | typeMismatch (op : BinaryOp) (left right : ValueType)
  /-- An order that does not exist on a type. -/
  | unknownOperator (op : BinaryOp) (operand : ValueType)
  /-- An operator before an operand of the wrong type. -/
  | unsupportedOperand (op : UnaryOp) (operand : ValueType)
  /-- A call of what is no function. -/
  | notAFunction (callee : ValueType)
  /-- A call with the wrong number of arguments. -/
  | wrongArity (expected given : Nat)
  /-- No more slots, or no more frames. -/
  | stackOverflow
  /-- Not enough values on the stack. -/
  | stackUnderflow
  /-- An index of no builtin function. -/
  | unresolvedBuiltin (index : Nat)
  /-- A look-up in what is neither array nor map. -/
  | indexNotSupported (container key : ValueType)
  /-- A key of a type that keys cannot have. -/
  | unusableAsKey (key : ValueType)
  /-- A builtin function that refuses its argument. -/
  | builtin (function : Builtin) (cause : ArgumentError)
  /-- Bytes that are no instruction. -/
  | invalidCode (cause : DecodeError)
  /-- An operand that points outside of what it refers to. -/
  | invalidOperand (op : Op) (operand : Nat)
  /-- More instructions than were allowed. -/
  | budgetExhausted
deriving DecidableEq

/-- The wording of a run-time error. -/
def RuntimeError.message : RuntimeError → String
  | typeMismatch op left right => s!"type mismatch: {left.name} {op.sign} {right.name}"
  | unknownOperator op t => s!"unknown operator: {t.name} {op.sign} {t.name}"
  | unsupportedOperand op t => s!"unsupported operand for {op.sign}: {t.name}"
  | notAFunction t => s!"calling non-function: {t.name}"
  | wrongArity expected given =>
    s!"wrong number of arguments: want={expected}, got={given}"
  | stackOverflow => "stack overflow"
  | stackUnderflow => "stack underflow"
  | unresolvedBuiltin index => s!"unresolved builtin #{index}"
  | indexNotSupported container key =>
    s!"index operator not supported: {container.name}[{key.name}]"
  | unusableAsKey t => s!"unusable as hash key: {t.name}"
  | builtin function cause => s!"{function.name}: {cause.message}"
  | invalidCode cause => cause.message
  | invalidOperand op operand => s!"invalid operand {operand} for {op.name}"
  | budgetExhausted => "instruction budget exhausted"

end StackScript
