import StackScript.Code.Instruction

/-!
# Writing code

Code is written by appending instructions. The target of a forward jump is not
known when the jump is written: a jump is written with a placeholder for its
target, and `Code.bind` later makes it land at the current end of the code. A
`Label` remembers where the placeholder stands.

The last instruction may be taken back (`Code.truncate`), and an opcode
overwritten by one of the same width (`Code.replaceOp?`).
-/

namespace StackScript

/-- **A forward jump that waits for its target**: the offset of the two bytes
that will hold it. -/
structure Label where
  /-- Where the target is to be written. -/
  operand : Nat
deriving DecidableEq, Inhabited

/-- **Why a jump cannot be made to land at the end of the code.** -/
inductive BindError where
  /-- The end lies further than an operand can say. -/
  | targetOutOfRange (target : Nat)
  /-- The bytes for the target have been taken back. -/
  | operandMissing
deriving DecidableEq

namespace Code

/-- The greatest offset that an operand can hold, also the placeholder of a jump
that waits for its target. -/
def maxTarget : Nat := 65535

/-- The code with an instruction appended. -/
def emit (code : Code) (i : Instruction) : Code := code ++ i.encode

/-- The label of a jump that begins at an offset. -/
def labelAt (offset : Nat) : Label := ⟨offset + 1⟩

/-- The code with a jump appended that waits for its target. -/
def emitJump (code : Code) : Code × Label :=
  (code.emit (.jump (UInt16.ofNat maxTarget)), labelAt code.size)

/-- The code with a conditional jump appended that waits for its target. -/
def emitJumpNotTruthy (code : Code) : Code × Label :=
  (code.emit (.jumpNotTruthy (UInt16.ofNat maxTarget)), labelAt code.size)

/-- The code with two bytes overwritten, the high one first. -/
def patch (code : Code) (offset : Nat) (operand : UInt16) : Code :=
  (code.setIfInBounds offset (operand >>> 8).toUInt8).setIfInBounds (offset + 1)
    operand.toUInt8

/-- **Makes a waiting jump land at the end of the code.** -/
def bind (code : Code) (label : Label) : Except BindError Code :=
  if maxTarget < code.size then .error (.targetOutOfRange code.size)
  else if code.size < label.operand + 2 then .error .operandMissing
  else .ok (code.patch label.operand (UInt16.ofNat code.size))

/-- The code up to an offset; all of it if the offset lies past the end. -/
def truncate (code : Code) (offset : Nat) : Code := code.shrink offset

/-- The code with the opcode at an offset overwritten; nothing if the offset
lies past the end. -/
def replaceOp? (code : Code) (offset : Nat) (op : Op) : Option Code :=
  if offset < code.size then some (code.setIfInBounds offset op.toByte) else none

end Code

end StackScript
