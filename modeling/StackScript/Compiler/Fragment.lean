import StackScript.Code.Builder

/-!
# Code being written

A **fragment** is the code of one function, or of the top level, while it is
being written, together with what is known of its last two instructions. Only
the last may be taken back or changed, and of the one before it only the place is
remembered, to become the last again.
-/

namespace StackScript

/-- An instruction that was written: its opcode and its offset. -/
structure Emitted where
  /-- The opcode. -/
  op : Op
  /-- Where the instruction begins. -/
  offset : Nat
deriving DecidableEq, Inhabited

/-- **The code of one function being written.** -/
structure Fragment where
  /-- The code so far. -/
  code : Code
  /-- The last instruction. -/
  last : Option Emitted
  /-- The instruction before it. -/
  previous : Option Emitted
deriving DecidableEq, Inhabited

namespace Fragment

/-- Nothing written yet. -/
def empty : Fragment := ⟨#[], none, none⟩

/-- The fragment with an instruction appended. -/
def emit (f : Fragment) (i : Instruction) : Fragment :=
  let offset := f.code.size
  ⟨f.code.emit i, some ⟨i.op, offset⟩, f.last⟩

/-- The fragment with a jump appended that waits for its target. -/
def emitJump (f : Fragment) : Fragment × Label :=
  let offset := f.code.size
  let (code, label) := f.code.emitJump
  (⟨code, some ⟨.jump, offset⟩, f.last⟩, label)

/-- The fragment with a conditional jump appended that waits for its target. -/
def emitJumpNotTruthy (f : Fragment) : Fragment × Label :=
  let offset := f.code.size
  let (code, label) := f.code.emitJumpNotTruthy
  (⟨code, some ⟨.jumpNotTruthy, offset⟩, f.last⟩, label)

/-- Makes a waiting jump land at the end of the code. -/
def bind (f : Fragment) (label : Label) : Except BindError Fragment :=
  (f.code.bind label).map fun code => { f with code }

/-- Whether the last instruction has some opcode. -/
def lastIs (f : Fragment) (op : Op) : Bool := f.last.any fun e => e.op == op

/-- The fragment without its last instruction. -/
def dropLast (f : Fragment) : Fragment :=
  match f.last with
  | none => f
  | some e => { f with code := f.code.truncate e.offset, last := f.previous }

/-- The fragment with its last opcode exchanged for another of the same width;
nothing if that opcode has been taken back. -/
def replaceLast? (f : Fragment) (op : Op) : Option Fragment :=
  match f.last with
  | none => some f
  | some e =>
    (f.code.replaceOp? e.offset op).map fun code => { f with code, last := some { e with op } }

end Fragment

end StackScript
