/-!
# Operators

The operators of the language stand before one operand or between two. Each has a
sign, and a **strength** that says how tightly it binds.
-/

namespace StackScript

/-- The operators before their operand. -/
inductive UnaryOp where
  /-- Negation of truth. -/
  | not
  /-- Negation of a number. -/
  | negate
deriving DecidableEq, Inhabited

/-- The sign of an operator before its operand. -/
def UnaryOp.sign : UnaryOp → String
  | not => "!"
  | negate => "-"

/-- The operators between their operands. -/
inductive BinaryOp where
  /-- Addition of numbers, joining of strings. -/
  | add
  /-- Subtraction. -/
  | sub
  /-- Multiplication. -/
  | mul
  /-- Division. -/
  | div
  /-- Less than. -/
  | less
  /-- Greater than. -/
  | greater
  /-- Equality. -/
  | equal
  /-- Inequality. -/
  | notEqual
deriving DecidableEq, Inhabited

namespace BinaryOp

/-- The sign of an operator between its operands. -/
def sign : BinaryOp → String
  | add => "+"
  | sub => "-"
  | mul => "*"
  | div => "/"
  | less => "<"
  | greater => ">"
  | equal => "=="
  | notEqual => "!="

/-- **How tightly an operator binds.** Operators of one strength group to the
left. -/
def strength : BinaryOp → Nat
  | equal | notEqual => 1
  | less | greater => 2
  | add | sub => 3
  | mul | div => 4

end BinaryOp

/-- How tightly an operator before its operand binds: more than any operator
between two. -/
def UnaryOp.strength : Nat := 5

end StackScript
