import StackScript.Machine.Basic

/-!
# Steps and runs of the machine

`Exec.execute` is what each instruction does. `Exec.step` is one round of the
machine: it reads the instruction of the newest frame, counts it against the
budget and executes it. Code may also end without an instruction: the end of the
top level ends the run, the end of a function returns null.

## How long a run may take

Nothing bounds a run of arbitrary code. Code that never jumps back, however,
executes each instruction of a function at most once per call, and calls nest no
deeper than `maxFrames`, so the rounds of such a run are bounded by a power of the
length of the code; and a budget bounds every run. `Machine.run` goes on for longer
than both (`Machine.patience`), which is longer than anyone waits, and a run that
has not ended by then is unfinished.
-/

namespace StackScript

namespace Exec

/-- Replaces the two operands on top of the stack by a result. -/
def binary (op : BinaryOp) : Exec Unit := do
  let right ← pop
  let left ← pop
  push (← ofExcept (Value.binary op left right))

/-- Replaces the operand on top of the stack by a result. -/
def unary (op : UnaryOp) : Exec Unit := do
  let operand ← pop
  push (← ofExcept (Value.unary op operand))

/-- The slot of a local of a frame; it must be in use. -/
def localSlot (frame : Frame) (op : Op) (index : Nat) : Exec Nat := do
  let slot := frame.base + index
  if frame.closure.body.locals ≤ index || (← get).sp ≤ slot then
    fail (.invalidOperand op index)
  else pure slot

/-- The constant of an index. -/
def constant (op : Op) (index : Nat) : Exec Value := do
  match (← get).constants[index]? with
  | some v => pure v
  | none => fail (.invalidOperand op index)

/-- Sets a slot of the stack. -/
def setSlot (i : Nat) (v : Value) : Exec Unit :=
  modify fun m => { m with stack := m.stack.setIfInBounds i v }

/-- Pushes a new closure of a routine. -/
def pushClosure (body : Routine) (captured : List Value) : Exec Unit := do
  let identity ← modifyGet fun m => (m.nextIdentity, { m with nextIdentity := m.nextIdentity + 1 })
  push (.closure identity body captured)

/-- **What an instruction of a frame does.** -/
def execute (frame : Frame) (i : Instruction) : Exec Unit := do
  match i with
  | .constant index => push (← constant .constant index.toNat)
  | .pop =>
    let v ← pop
    modify fun m => { m with lastPopped := v }
  | .add => binary .add
  | .sub => binary .sub
  | .mul => binary .mul
  | .div => binary .div
  | .pushTrue => push (.boolean true)
  | .pushFalse => push (.boolean false)
  | .pushNull => push .null
  | .equal => binary .equal
  | .notEqual => binary .notEqual
  | .greaterThan => binary .greater
  | .negate => unary .negate
  | .bang => unary .not
  | .jumpNotTruthy target =>
    let v ← pop
    if v.truthy then pure () else modify fun m => m.jumpTo target.toNat
  | .jump target => modify fun m => m.jumpTo target.toNat
  | .getGlobal index => push ((← get).globals.get index.toNat)
  | .setGlobal index =>
    let v ← pop
    modify fun m => { m with globals := m.globals.set index.toNat v }
  | .getLocal index =>
    let slot ← localSlot frame .getLocal index.toNat
    push ((← get).slot slot)
  | .setLocal index =>
    let slot ← localSlot frame .setLocal index.toNat
    let v ← pop
    setSlot slot v
  | .getBuiltin index =>
    match Builtin.ofIndex? index.toNat with
    | some b => push (.builtin b)
    | none => fail (.unresolvedBuiltin index.toNat)
  | .getFree index =>
    match frame.closure.captured[index.toNat]? with
    | some v => push v
    | none => fail (.invalidOperand .getFree index.toNat)
  | .currentClosure => push frame.closure.value
  | .makeArray count => push (.array (← popMany count.toNat))
  | .makeMap count =>
    let items ← popMany count.toNat
    push (.map (← ofExcept (Value.insertAll [] items)))
  | .index =>
    let key ← pop
    let container ← pop
    push (← ofExcept (Value.lookup container key))
  | .call count => call count.toNat
  | .returnValue => returnWith (← pop)
  | .returnNull => returnWith .null
  | .makeClosure index captured =>
    match ← constant .makeClosure index.toNat with
    | .routine body => pushClosure body (← popMany captured.toNat)
    | _ => fail (.invalidOperand .makeClosure index.toNat)

/-- Counts an instruction against the budget. -/
def spend : Exec Unit := fun m =>
  match m.budget with
  | none => .ok () m
  | some 0 => .error (.error .budgetExhausted) m
  | some (n + 1) => .ok () { m with budget := some n }

/-- Moves past an instruction of a frame that is about to be executed, and
records it. -/
def advance (frame : Frame) (callers : List Frame) (i : Instruction) : Exec Unit :=
  modify fun m =>
    { m with
      frames := { frame with ip := frame.ip + i.size } :: callers
      journal := m.journal.record fun _ => .dispatched (callers.length + 1) frame.ip i }

/-- **One round of the machine**: whether it is still running afterwards. -/
def step : Exec Bool := do
  match (← get).frames with
  | [] => pure false
  | frame :: callers =>
    match frame.closure.body.code.decodeAt frame.ip with
    | none =>
      if callers.isEmpty then pure false
      else
        returnWith .null
        pure true
    | some (.error cause) => fail (.invalidCode cause)
    | some (.ok i) =>
      spend
      advance frame callers i
      execute frame i
      pure true

/-- **Up to `n` rounds**: whether the machine is still running afterwards. -/
def rounds : (n : Nat) → Exec Bool
  | 0 => pure true
  | n + 1 => do if ← step then rounds n else pure false

/-- The rounds of one stretch of a run. -/
def stretch : Nat := 65536

/-- **Up to `n` stretches of rounds**: whether the machine is still running
afterwards. The count of stretches may be a number of many digits, while the count
of rounds inside one stays small. -/
def stretches : (n : Nat) → Exec Bool
  | 0 => pure true
  | n + 1 => do if ← rounds stretch then stretches n else pure false

end Exec

namespace Machine

/-- The bytes of the longest code that the machine was loaded with. -/
def longestCode (m : Machine) : Nat :=
  let sizes := m.constants.map fun
    | .routine body => body.code.size
    | _ => 0
  let top := (m.frames.head?.map fun frame => frame.closure.body.code.size).getD 0
  sizes.foldl max top

/-- **The stretches that a run is given.** -/
def patience (m : Machine) : Nat :=
  Nat.pow (m.longestCode + 2) (maxFrames + 1) + m.budget.getD 0 + 1

/-- **Runs the machine** until it stops: why, if not at the end of its code, and
the machine afterwards. -/
def run (m : Machine) : Except Halt Unit × Machine :=
  match Exec.stretches m.patience m with
  | .ok false m => (.ok (), m)
  | .ok true m => (.error .unfinished, m)
  | .error cause m => (.error cause, m)

end Machine

end StackScript
