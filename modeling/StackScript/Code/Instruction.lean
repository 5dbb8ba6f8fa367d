import StackScript.Code.Op
import StackScript.Text.Column

/-!
# Instructions and their bytes

An **instruction** is an opcode with its operands. Operands of two bytes are
written with the high byte first; an instruction is the byte of its opcode and
then its operands.

Code is any array of bytes. Reading it back is `Code.decodeAt`, one instruction
at a given offset, and `Code.decode`, all of them from the front up to the first
place that holds none.
-/

namespace StackScript

/-- **An instruction of the machine.** -/
inductive Instruction where
  /-- Push the constant of this index. -/
  | constant (index : UInt16)
  /-- Discard the top of the stack. -/
  | pop
  /-- Add two numbers, or join two strings. -/
  | add
  /-- Subtract. -/
  | sub
  /-- Multiply. -/
  | mul
  /-- Divide. -/
  | div
  /-- Push truth. -/
  | pushTrue
  /-- Push falsehood. -/
  | pushFalse
  /-- Push null. -/
  | pushNull
  /-- Compare for equality. -/
  | equal
  /-- Compare for inequality. -/
  | notEqual
  /-- Compare two numbers for order. -/
  | greaterThan
  /-- Negate a number. -/
  | negate
  /-- Negate truth. -/
  | bang
  /-- Jump to an offset if the top of the stack is not true. -/
  | jumpNotTruthy (target : UInt16)
  /-- Jump to an offset. -/
  | jump (target : UInt16)
  /-- Push the global of this index. -/
  | getGlobal (index : UInt16)
  /-- Set the global of this index. -/
  | setGlobal (index : UInt16)
  /-- Push the local of this index. -/
  | getLocal (index : UInt8)
  /-- Set the local of this index. -/
  | setLocal (index : UInt8)
  /-- Push the builtin function of this index. -/
  | getBuiltin (index : UInt8)
  /-- Push the captured value of this index. -/
  | getFree (index : UInt8)
  /-- Push the closure being run. -/
  | currentClosure
  /-- Build an array of so many items. -/
  | makeArray (count : UInt16)
  /-- Build a map of so many keys and values together. -/
  | makeMap (count : UInt16)
  /-- Look up an element of an array or a map. -/
  | index
  /-- Call a function with so many arguments. -/
  | call (count : UInt8)
  /-- Return the top of the stack. -/
  | returnValue
  /-- Return null. -/
  | returnNull
  /-- Build a closure of a function in the pool, with so many captured
  values. -/
  | makeClosure (constant : UInt16) (captured : UInt8)
deriving DecidableEq, Inhabited

namespace Instruction

/-- The opcode of an instruction. -/
def op : Instruction → Op
  | constant _ => .constant
  | pop => .pop
  | add => .add
  | sub => .sub
  | mul => .mul
  | div => .div
  | pushTrue => .pushTrue
  | pushFalse => .pushFalse
  | pushNull => .pushNull
  | equal => .equal
  | notEqual => .notEqual
  | greaterThan => .greaterThan
  | negate => .negate
  | bang => .bang
  | jumpNotTruthy _ => .jumpNotTruthy
  | jump _ => .jump
  | getGlobal _ => .getGlobal
  | setGlobal _ => .setGlobal
  | getLocal _ => .getLocal
  | setLocal _ => .setLocal
  | getBuiltin _ => .getBuiltin
  | getFree _ => .getFree
  | currentClosure => .currentClosure
  | makeArray _ => .makeArray
  | makeMap _ => .makeMap
  | index => .index
  | call _ => .call
  | returnValue => .returnValue
  | returnNull => .returnNull
  | makeClosure .. => .makeClosure

/-- The bytes an instruction takes. -/
def size (i : Instruction) : Nat := i.op.size

/-- The two bytes of a wide operand, the high one first. -/
def wide (operand : UInt16) : List UInt8 :=
  [(operand >>> 8).toUInt8, operand.toUInt8]

/-- The bytes of an instruction's operands. -/
def operands : Instruction → List UInt8
  | constant n | jumpNotTruthy n | jump n | getGlobal n | setGlobal n | makeArray n
  | makeMap n => wide n
  | getLocal n | setLocal n | getBuiltin n | getFree n | call n => [n]
  | makeClosure n k => wide n ++ [k]
  | _ => []

/-- **The bytes of an instruction.** -/
def encode (i : Instruction) : List UInt8 := i.op.toByte :: i.operands

/-- The text of an instruction in listings. -/
def text (i : Instruction) : String :=
  let operand :=
    match i with
    | constant n => s!" #{n}"
    | jumpNotTruthy n | jump n => s!" @{n}"
    | getGlobal n | setGlobal n => s!" g{n}"
    | getLocal n | setLocal n => s!" l{n}"
    | getFree n => s!" f{n}"
    | getBuiltin n | call n => s!" {n}"
    | makeArray n | makeMap n => s!" {n}"
    | makeClosure n k => s!" #{n} {k}"
    | _ => ""
  i.op.name ++ operand

end Instruction

/-- **Code**: bytes that may be instructions. -/
abbrev Code := Array UInt8

/-- **Why code holds no instruction at some offset.** -/
inductive DecodeError where
  /-- The byte there is the byte of no opcode. -/
  | invalidOpcode (offset : Nat) (byte : UInt8)
  /-- The code ends before the operands do. -/
  | truncated (offset : Nat) (op : Op)
deriving DecidableEq

/-- The wording of a decoding error. -/
def DecodeError.message : DecodeError → String
  | invalidOpcode offset byte =>
    s!"invalid opcode 0x{hexadecimal 2 byte.toNat} at offset {offset}"
  | truncated offset op => s!"truncated {op.name} instruction at offset {offset}"

namespace Code

/-- The operand of two bytes at an offset. -/
def wide? (code : Code) (offset : Nat) : Option UInt16 :=
  match code[offset]?, code[offset + 1]? with
  | some high, some low => some (high.toUInt16 <<< 8 ||| low.toUInt16)
  | _, _ => none

/-- The instruction with a given opcode whose operands begin at an offset. -/
def operandsAt? (code : Code) (op : Op) (offset : Nat) : Option Instruction :=
  match op with
  | .constant => (wide? code offset).map .constant
  | .pop => some .pop
  | .add => some .add
  | .sub => some .sub
  | .mul => some .mul
  | .div => some .div
  | .pushTrue => some .pushTrue
  | .pushFalse => some .pushFalse
  | .pushNull => some .pushNull
  | .equal => some .equal
  | .notEqual => some .notEqual
  | .greaterThan => some .greaterThan
  | .negate => some .negate
  | .bang => some .bang
  | .jumpNotTruthy => (wide? code offset).map .jumpNotTruthy
  | .jump => (wide? code offset).map .jump
  | .getGlobal => (wide? code offset).map .getGlobal
  | .setGlobal => (wide? code offset).map .setGlobal
  | .getLocal => code[offset]?.map .getLocal
  | .setLocal => code[offset]?.map .setLocal
  | .getBuiltin => code[offset]?.map .getBuiltin
  | .getFree => code[offset]?.map .getFree
  | .currentClosure => some .currentClosure
  | .makeArray => (wide? code offset).map .makeArray
  | .makeMap => (wide? code offset).map .makeMap
  | .index => some .index
  | .call => code[offset]?.map .call
  | .returnValue => some .returnValue
  | .returnNull => some .returnNull
  | .makeClosure =>
    match wide? code offset, code[offset + 2]? with
    | some constant, some captured => some (.makeClosure constant captured)
    | _, _ => none

/-- **The instruction at an offset**, or why there is none; nothing at all past
the end of the code. -/
def decodeAt (code : Code) (offset : Nat) : Option (Except DecodeError Instruction) :=
  match code[offset]? with
  | none => none
  | some byte =>
    match Op.ofByte? byte with
    | none => some (.error (.invalidOpcode offset byte))
    | some op =>
      match operandsAt? code op (offset + 1) with
      | none => some (.error (.truncated offset op))
      | some i => some (.ok i)

theorem lt_size_of_decodeAt {code : Code} {offset : Nat}
    {r : Except DecodeError Instruction} (h : code.decodeAt offset = some r) :
    offset < code.size := by
  unfold decodeAt at h
  split at h
  · simp at h
  · rename_i heq
    exact (Array.getElem?_eq_some_iff.mp heq).1

/-- **What code reads back as**: the instructions from the front, each with its
offset, and what stopped the reading. -/
structure Decoded where
  /-- The instructions with their offsets, in order. -/
  instructions : Array (Nat × Instruction)
  /-- The offset after the last instruction. -/
  stop : Nat
  /-- Why no instruction follows, unless the code ends there. -/
  error : Option DecodeError

/-- Reads on from an offset, after the instructions already found. -/
def decodeFrom (code : Code) (found : Array (Nat × Instruction)) (offset : Nat) : Decoded :=
  match _h : code.decodeAt offset with
  | none => ⟨found, offset, none⟩
  | some (.error e) => ⟨found, offset, some e⟩
  | some (.ok i) => code.decodeFrom (found.push (offset, i)) (offset + i.size)
termination_by code.size - offset
decreasing_by
  have := lt_size_of_decodeAt _h
  have := i.op.size_pos
  rw [Instruction.size]
  omega

/-- **The instructions of some code**, up to the first place that holds none. -/
def decode (code : Code) : Decoded := code.decodeFrom #[] 0

/-- The lines of a listing: one per instruction, with its offset, and one for
the error that ends it. -/
def listingLines (code : Code) : List String :=
  let decoded := code.decode
  let lines := decoded.instructions.toList.map fun (offset, i) =>
    column 4 '0' (toString offset) ++ " " ++ i.text
  lines ++ (decoded.error.map fun e => "ERROR: " ++ e.message).toList

/-- **The listing of some code**, a line feed after each line. -/
def listing (code : Code) : String :=
  String.join (code.listingLines.map (· ++ "\n"))

end Code

end StackScript
