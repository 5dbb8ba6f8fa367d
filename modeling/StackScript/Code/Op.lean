/-!
# Opcodes

An **opcode** says what an instruction does; its byte is its place in `Op.all`.
The operands that follow it have fixed widths of one or two bytes.
-/

namespace StackScript

/-- **What an instruction does.** -/
inductive Op where
  /-- Push a constant of the pool. -/
  | constant
  /-- Discard the top of the stack. -/
  | pop
  /-- Add two numbers, or join two strings. -/
  | add
  /-- Subtract. -/
  | sub
  /-- Multiply. -/
  | mul
  /-- Divide. -/
  | div
  /-- Push truth. -/
  | pushTrue
  /-- Push falsehood. -/
  | pushFalse
  /-- Push null. -/
  | pushNull
  /-- Compare for equality. -/
  | equal
  /-- Compare for inequality. -/
  | notEqual
  /-- Compare two numbers for order. -/
  | greaterThan
  /-- Negate a number. -/
  | negate
  /-- Negate truth. -/
  | bang
  /-- Jump if the top of the stack is not true. -/
  | jumpNotTruthy
  /-- Jump. -/
  | jump
  /-- Push a global. -/
  | getGlobal
  /-- Set a global. -/
  | setGlobal
  /-- Push a local. -/
  | getLocal
  /-- Set a local. -/
  | setLocal
  /-- Push a builtin function. -/
  | getBuiltin
  /-- Push a captured value. -/
  | getFree
  /-- Push the closure being run. -/
  | currentClosure
  /-- Build an array. -/
  | makeArray
  /-- Build a map. -/
  | makeMap
  /-- Look up an element of an array or a map. -/
  | index
  /-- Call a function. -/
  | call
  /-- Return the top of the stack. -/
  | returnValue
  /-- Return null. -/
  | returnNull
  /-- Build a closure. -/
  | makeClosure
deriving DecidableEq, Inhabited

namespace Op

/-- **The opcodes in the order of their bytes.** -/
def all : Array Op := #[
  constant, pop, add, sub, mul, div, pushTrue, pushFalse, pushNull, equal, notEqual,
  greaterThan, negate, bang, jumpNotTruthy, jump, getGlobal, setGlobal, getLocal,
  setLocal, getBuiltin, getFree, currentClosure, makeArray, makeMap, index, call,
  returnValue, returnNull, makeClosure]

/-- The byte of an opcode. -/
def toByte (op : Op) : UInt8 := UInt8.ofNat op.ctorIdx

/-- The opcode of a byte, if it is the byte of one. -/
def ofByte? (byte : UInt8) : Option Op := all[byte.toNat]?

/-- The name of an opcode in listings and messages. -/
def name : Op → String
  | constant => "Constant"
  | pop => "Pop"
  | add => "Add"
  | sub => "Sub"
  | mul => "Mul"
  | div => "Div"
  | pushTrue => "True"
  | pushFalse => "False"
  | pushNull => "Null"
  | equal => "Equal"
  | notEqual => "NotEqual"
  | greaterThan => "GreaterThan"
  | negate => "Minus"
  | bang => "Bang"
  | jumpNotTruthy => "JumpNotTruthy"
  | jump => "Jump"
  | getGlobal => "GetGlobal"
  | setGlobal => "SetGlobal"
  | getLocal => "GetLocal"
  | setLocal => "SetLocal"
  | getBuiltin => "GetBuiltin"
  | getFree => "GetFree"
  | currentClosure => "CurrentClosure"
  | makeArray => "Array"
  | makeMap => "Hash"
  | index => "Index"
  | call => "Call"
  | returnValue => "ReturnValue"
  | returnNull => "Return"
  | makeClosure => "Closure"

/-- The widths of an opcode's operands, in bytes. -/
def widths : Op → List Nat
  | constant | jumpNotTruthy | jump | getGlobal | setGlobal | makeArray | makeMap => [2]
  | getLocal | setLocal | getBuiltin | getFree | call => [1]
  | makeClosure => [2, 1]
  | _ => []

/-- The bytes of an instruction with this opcode, operands included. -/
def size (op : Op) : Nat := op.widths.foldl (· + ·) 1

theorem size_pos (op : Op) : 0 < op.size := by
  cases op <;> decide

theorem ofByte?_toByte (op : Op) : ofByte? op.toByte = some op := by
  cases op <;> rfl

end Op

end StackScript
