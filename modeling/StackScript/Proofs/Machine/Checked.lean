import StackScript.Proofs.Code.Encoding
import StackScript.Proofs.Machine.Path

/-!
# The machine that looks where it goes

The machine reads a slot that does not exist as null, writes to none, and cuts a
range of slots off where the stack ends. Whether it ever does so cannot be told
from what it comes to. Here is the same machine once more, and this one
**crashes** wherever it would look at a place that is not there: a slot or a
range of slots of the stack, a frame, a byte of some code, a constant of the
pool, a captured value, or the slot below slot zero (`Checked.outside`). Only
what the machine itself tests beforehand is answered by a run-time error.

Where the two machines come to the same, no place is looked at that is not
there. What the checked machine does at places that are there is the second part
of this module.
-/

namespace StackScript

namespace Checked

open Exec (fail ofExcept bind_of_ok)

/-! ## Places -/

/-- There is no such place. -/
def outside {α : Type} : Exec α := throw .crash

/-- What stands at a place of an array. -/
def item {α : Type} (xs : Array α) (i : Nat) : Exec α :=
  match xs[i]? with
  | some a => pure a
  | none => outside

/-- The value of a slot. -/
def slot (i : Nat) : Exec Value := do item (← get).stack i

/-- Sets a slot. -/
def setSlot (i : Nat) (v : Value) : Exec Unit := do
  let m ← get
  if i < m.stack.size then Exec.setSlot i v else outside

/-- The values of a range of slots. -/
def range (start stop : Nat) : Exec (List Value) := do
  let m ← get
  if start ≤ stop ∧ stop ≤ m.stack.size then pure (m.stack.extract start stop).toList else outside

/-- Makes a range of slots null. -/
def clearRange (start stop : Nat) : Exec Unit := do
  let m ← get
  if start ≤ stop ∧ stop ≤ m.stack.size then
    modify fun m => { m with stack := Exec.clear m.stack start (stop - start) }
  else outside

/-- The newest frame. -/
def frame : Exec Frame := do
  match (← get).frames with
  | [] => outside
  | frame :: _ => pure frame

/-- Goes on elsewhere in the newest frame. -/
def setIp (ip : Nat) : Exec Unit := do
  match (← get).frames with
  | [] => outside
  | frame :: callers => modify fun m => { m with frames := { frame with ip } :: callers }

/-- The slot below a slot. -/
def below : (i : Nat) → Exec Nat
  | 0 => outside
  | i + 1 => pure i

/-- What stands at a place that an operand names. -/
def named (xs : Array Value) (op : Op) (index : Nat) : Exec Value :=
  if index < xs.size then item xs index else fail (.invalidOperand op index)

/-! ## The stack -/

/-- Pushes a value. -/
def push (v : Value) : Exec Unit := do
  let m ← get
  if m.sp < stackSize then
    setSlot m.sp v
    modify fun m => { m with sp := m.sp + 1 }
  else fail .stackOverflow

/-- Pops a value; its slot becomes null. -/
def pop : Exec Value := do
  let m ← get
  if m.sp = 0 then fail .stackUnderflow
  else
    let i := m.sp - 1
    let v ← slot i
    setSlot i .null
    modify fun m => { m with sp := i }
    pure v

/-- Pops so many values, the lowest first; their slots become null. -/
def popMany (count : Nat) : Exec (List Value) := do
  let m ← get
  if m.sp < count then fail .stackUnderflow
  else
    let start := m.sp - count
    let values ← range start m.sp
    clearRange start m.sp
    modify fun m => { m with sp := start }
    pure values

/-- Discards the values from a slot on; their slots become null. -/
def discardFrom (i : Nat) : Exec Unit := do
  clearRange i (← get).sp
  modify fun m => { m with sp := i }

/-- Replaces the two operands on top of the stack by a result. -/
def binary (op : BinaryOp) : Exec Unit := do
  let right ← pop
  let left ← pop
  push (← ofExcept (Value.binary op left right))

/-- Replaces the operand on top of the stack by a result. -/
def unary (op : UnaryOp) : Exec Unit := do
  let operand ← pop
  push (← ofExcept (Value.unary op operand))

/-- Pushes a new closure of a routine. -/
def pushClosure (body : Routine) (captured : List Value) : Exec Unit := do
  let identity ← modifyGet fun m => (m.nextIdentity, { m with nextIdentity := m.nextIdentity + 1 })
  push (.closure identity body captured)

/-! ## Calls -/

/-- Calls a builtin function that stands in a slot, its arguments above it. -/
def callBuiltin (b : Builtin) (callee : Nat) : Exec Unit := do
  let args ← range (callee + 1) (← get).sp
  let result ← ofExcept (b.call args)
  modify fun m => { m with output := m.output ++ b.output args }
  discardFrom callee
  push result

/-- Calls what stands below so many arguments. A new frame needs no place that
is there already. -/
def call (count : Nat) : Exec Unit := do
  let m ← get
  if m.sp < count + 1 then fail .stackUnderflow
  else
    let callee := m.sp - (count + 1)
    match ← slot callee with
    | .closure identity body captured => Exec.enter ⟨identity, body, captured⟩ (callee + 1) count
    | .builtin b => callBuiltin b callee
    | v => fail (.notAFunction v.type)

/-- Returns a value from the newest frame. -/
def returnWith (v : Value) : Exec Unit := do
  match (← get).frames with
  | [] => fail .stackUnderflow
  | [_] => modify fun m => { m with frames := [], lastPopped := v }
  | frame :: callers =>
    modify fun m => { m with frames := callers }
    discardFrom (← below frame.base)
    push v

/-! ## Rounds -/

/-- What an instruction does. -/
def execute (i : Instruction) : Exec Unit := do
  match i with
  | .constant index => push (← named (← get).constants .constant index.toNat)
  | .pop =>
    let v ← pop
    modify fun m => { m with lastPopped := v }
  | .add => binary .add
  | .sub => binary .sub
  | .mul => binary .mul
  | .div => binary .div
  | .pushTrue => push (.boolean true)
  | .pushFalse => push (.boolean false)
  | .pushNull => push .null
  | .equal => binary .equal
  | .notEqual => binary .notEqual
  | .greaterThan => binary .greater
  | .negate => unary .negate
  | .bang => unary .not
  | .jumpNotTruthy target =>
    let v ← pop
    if v.truthy then pure () else setIp target.toNat
  | .jump target => setIp target.toNat
  | .getGlobal index => push ((← get).globals.get index.toNat)
  | .setGlobal index =>
    let v ← pop
    modify fun m => { m with globals := m.globals.set index.toNat v }
  | .getLocal index =>
    let i ← Exec.localSlot (← frame) .getLocal index.toNat
    push (← slot i)
  | .setLocal index =>
    let i ← Exec.localSlot (← frame) .setLocal index.toNat
    let v ← pop
    setSlot i v
  | .getBuiltin index =>
    match Builtin.ofIndex? index.toNat with
    | some b => push (.builtin b)
    | none => fail (.unresolvedBuiltin index.toNat)
  | .getFree index => push (← named (← frame).closure.captured.toArray .getFree index.toNat)
  | .currentClosure => push (← frame).closure.value
  | .makeArray count => push (.array (← popMany count.toNat))
  | .makeMap count =>
    let items ← popMany count.toNat
    push (.map (← ofExcept (Value.insertAll [] items)))
  | .index =>
    let key ← pop
    let container ← pop
    push (← ofExcept (Value.lookup container key))
  | .call count => call count.toNat
  | .returnValue => returnWith (← pop)
  | .returnNull => returnWith .null
  | .makeClosure index captured =>
    match ← named (← get).constants .makeClosure index.toNat with
    | .routine body => pushClosure body (← popMany captured.toNat)
    | _ => fail (.invalidOperand .makeClosure index.toNat)

/-- Reads the instruction at an offset. The operands are read without a further
test when the code is long enough for the opcode. -/
def fetch (code : Code) (offset : Nat) : Exec Instruction := do
  let byte ← item code offset
  match Op.ofByte? byte with
  | none => fail (.invalidCode (.invalidOpcode offset byte))
  | some op =>
    if code.size < offset + op.size then fail (.invalidCode (.truncated offset op))
    else
      match code.operandsAt? op (offset + 1) with
      | some i => pure i
      | none => outside

/-- Moves past an instruction that is about to be executed, and records it. -/
def advance (i : Instruction) : Exec Unit := do
  let ip := (← frame).ip
  modify fun m =>
    { m with journal := m.journal.record fun _ => .dispatched m.frames.length ip i }
  setIp (ip + i.size)

/-- **One round of the machine that looks where it goes.** -/
def step : Exec Bool := do
  match (← get).frames with
  | [] => pure false
  | frame :: callers =>
    if frame.closure.body.code.size ≤ frame.ip then
      if callers.isEmpty then pure false
      else
        returnWith .null
        pure true
    else
      let i ← fetch frame.closure.body.code frame.ip
      Exec.spend
      advance i
      execute i
      pure true

/-! ## Places that are there -/

variable {m : Machine} {newest : Frame} {callers : List Frame}

/-- An item that is there is found, and nothing changes. -/
theorem item_of_lt {α : Type} {xs : Array α} {i : Nat} (h : i < xs.size) (m : Machine) :
    item xs i m = .ok xs[i] m := by
  rw [item, Array.getElem?_eq_getElem h]
  rfl

/-- A slot of the stack is read as the machine itself reads it. -/
theorem slot_of_lt {i : Nat} (h : i < m.stack.size) : slot i m = .ok (m.slot i) m := by
  rw [Machine.slot, Array.getElem?_eq_getElem h]
  exact item_of_lt h m

/-- A slot of the stack is set as the machine itself sets it. -/
theorem setSlot_of_lt {i : Nat} (v : Value) (h : i < m.stack.size) :
    setSlot i v m = .ok () { m with stack := m.stack.setIfInBounds i v } := by
  show (if i < m.stack.size then Exec.setSlot i v else outside) m = _
  rw [if_pos h]
  rfl

/-- A range of slots up to the stack pointer is read, if the pointer is within
the stack. -/
theorem range_of_le {start : Nat} (hstart : start ≤ m.sp) (hstop : m.sp ≤ m.stack.size) :
    range start m.sp m = .ok (m.stack.extract start m.sp).toList m := by
  show (if start ≤ m.sp ∧ m.sp ≤ m.stack.size then _ else outside) m = _
  rw [if_pos ⟨hstart, hstop⟩]
  rfl

/-- Such a range is cleared in the same way. -/
theorem clearRange_of_le {start : Nat} (hstart : start ≤ m.sp) (hstop : m.sp ≤ m.stack.size) :
    clearRange start m.sp m =
      .ok () { m with stack := Exec.clear m.stack start (m.sp - start) } := by
  show (if start ≤ m.sp ∧ m.sp ≤ m.stack.size then _ else outside) m = _
  rw [if_pos ⟨hstart, hstop⟩]
  rfl

/-- A range that begins above the stack pointer is a crash. The machine itself
has the same crash here, unlike with the other places. -/
theorem clearRange_of_lt {start : Nat} (h : m.sp < start) :
    clearRange start m.sp m = .error .crash m := by
  show (if start ≤ m.sp ∧ m.sp ≤ m.stack.size then _ else outside) m = _
  rw [if_neg fun h' => Nat.not_le.2 h h'.1]
  rfl

/-- The newest frame is found if there is a frame at all. -/
theorem frame_of_cons (h : m.frames = newest :: callers) : frame m = .ok newest m := by
  cases m
  cases h
  rfl

/-- So is the frame that a jump changes. -/
theorem setIp_of_cons (h : m.frames = newest :: callers) (ip : Nat) :
    setIp ip m = .ok () { m with frames := { newest with ip } :: callers } := by
  cases m
  cases h
  rfl

/-- A return from the top level ends the program. There is no slot below to look
for. -/
theorem returnWith_of_top (h : m.frames = [newest]) (v : Value) :
    returnWith v m = .ok () { m with frames := [], lastPopped := v } := by
  cases m
  cases h
  rfl

/-- A return from a function discards its slots and those of its arguments, and
the one below its base, where it stands itself. -/
theorem returnWith_of_function {caller : Frame} (h : m.frames = newest :: caller :: callers)
    (v : Value) : returnWith v m = (do
      discardFrom (← below newest.base)
      push v : Exec Unit) { m with frames := caller :: callers } := by
  cases m
  cases h
  rfl

/-- A constant or a captured value is there. -/
theorem named_of_some {xs : Array Value} {index : Nat} {v : Value} (op : Op) (m : Machine)
    (h : xs[index]? = some v) : named xs op index m = .ok v m := by
  obtain ⟨hlt, rfl⟩ := Array.getElem?_eq_some_iff.1 h
  rw [named, if_pos hlt, item_of_lt hlt]

/-- The operand that names a constant or a captured value is invalid. -/
theorem named_of_none {xs : Array Value} {index : Nat} (op : Op) (m : Machine)
    (h : xs[index]? = none) :
    named xs op index m = .error (.error (.invalidOperand op index)) m := by
  rw [named, if_neg (Nat.not_lt.2 (Array.getElem?_eq_none_iff.1 h))]
  rfl

/-- What is read of some code is there: past its end nothing is read, and
operands only when the code is long enough for the opcode. -/
theorem fetch_eq {code : Code} {offset : Nat} {r : Except DecodeError Instruction}
    (h : code.decodeAt offset = some r) (m : Machine) :
    fetch code offset m = Exec.ofExcept (r.mapError .invalidCode) m := by
  have hlt := Code.lt_size_of_decodeAt h
  rw [fetch, bind_of_ok _ (item_of_lt hlt m)]
  rw [Code.decodeAt, Array.getElem?_eq_getElem hlt] at h
  dsimp only at h
  cases hop : Op.ofByte? code[offset] with
  | none =>
    rw [hop] at h
    cases h
    rfl
  | some op =>
    rw [hop] at h
    dsimp only at h ⊢
    have hnone : code.operandsAt? op (offset + 1) = none ↔ _ := Code.operandsAt?_eq_none_iff hlt
    cases hoperands : code.operandsAt? op (offset + 1) with
    | none =>
      rw [hoperands] at h
      cases h
      rw [if_pos (hnone.1 hoperands)]
      rfl
    | some i =>
      rw [hoperands] at h
      cases h
      rw [if_neg fun hshort => by rw [hnone.2 hshort] at hoperands; cases hoperands]
      rfl

/-- Moving past an instruction is the same for both machines: all it needs is a
frame. -/
theorem advance_eq (hframes : m.frames = newest :: callers) (i : Instruction) :
    advance i m = Exec.advance newest callers i m := by
  cases m
  cases hframes
  rfl

/-- A round of the checked machine, once its newest frame has been found. In
this form it can be compared with `Exec.step`. -/
theorem step_of_frames (hframes : m.frames = newest :: callers) :
    step m = (if newest.closure.body.code.size ≤ newest.ip then
        if callers.isEmpty then pure false else do
          returnWith .null
          pure true
      else do
        let i ← fetch newest.closure.body.code newest.ip
        Exec.spend
        advance i
        execute i
        pure true : Exec Bool) m := by
  cases m
  cases hframes
  rfl

end Checked

end StackScript
