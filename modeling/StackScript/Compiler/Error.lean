import StackScript.Number.Text
import StackScript.Source.Span

/-!
# Compile errors

What the compiler refuses: names that are bound nowhere, returns that have no
function to return from, and what does not fit into the operands of
instructions. Each error has the span of the construct it is about.
-/

namespace StackScript

/-- **Why a program cannot be compiled.** -/
inductive CompileFault where
  /-- A number literal too great to be a number. -/
  | malformedNumber (value : Number)
  /-- A name that is bound nowhere. -/
  | undefinedVariable (name : String)
  /-- A constant whose index does not fit. -/
  | tooManyConstants
  /-- A global variable whose index does not fit. -/
  | tooManyGlobals
  /-- A variable of a function whose index does not fit. -/
  | tooManyLocals
  /-- A return at the top level. -/
  | returnOutsideFunction
  /-- A function with too many parameters. -/
  | tooManyParameters
  /-- A function that captures too many values. -/
  | tooManyCaptures
  /-- A use of a name whose index does not fit. -/
  | slotOutOfRange (name : String)
  /-- A call with too many arguments. -/
  | tooManyArguments
  /-- An array literal with too many items. -/
  | arrayTooLong
  /-- A map literal with too many entries. -/
  | mapTooLong
  /-- A jump to an offset that does not fit. -/
  | jumpOutOfRange (target : Nat)
  /-- Code or a function that is needed again after it was given up. No program
  leads to this. -/
  | corrupted
deriving DecidableEq

/-- The wording of a compile error, without its place. -/
def CompileFault.message : CompileFault → String
  | malformedNumber n => s!"malformed number literal {n.text}"
  | undefinedVariable name => s!"undefined variable {name}"
  | tooManyConstants => "too many constants"
  | tooManyGlobals => "too many global bindings"
  | tooManyLocals => "too many local bindings"
  | returnOutsideFunction => "return outside of a function"
  | tooManyParameters => "too many parameters"
  | tooManyCaptures => "too many captured variables"
  | slotOutOfRange name => s!"slot of {name} out of range"
  | tooManyArguments => "too many arguments"
  | arrayTooLong => "array literal too long"
  | mapTooLong => "map literal too long"
  | jumpOutOfRange target => s!"jump target {target} out of range"
  | corrupted => "code corrupted"

/-- **Why a program cannot be compiled, and where.** -/
structure CompileError where
  /-- What is wrong. -/
  fault : CompileFault
  /-- The construct that it is about. -/
  span : Span
deriving DecidableEq

namespace CompileError

/-- What is wrong. -/
def message (e : CompileError) : String := e.fault.message

/-- Where it is wrong, and what. -/
def text (e : CompileError) : String := s!"{e.span.start.text}: {e.message}"

end CompileError

end StackScript
