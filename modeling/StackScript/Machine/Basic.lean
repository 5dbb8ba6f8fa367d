import StackScript.Bytecode
import StackScript.Globals
import StackScript.Machine.Journal
import StackScript.Machine.Operation

/-!
# The machine

The machine has a **stack** of a fixed number of slots, of which those below the
stack pointer are in use, and a pile of **frames**, one for each closure being
run. A frame's locals are slots of the stack: a call leaves the closure in its
slot, its arguments above it become the first locals, and the return leaves the
result in the closure's slot.

A step of the machine is a computation in `Exec`, which changes the machine and
may halt. A step that halts still changes the machine by what it did before:
values that were popped stay popped.
-/

namespace StackScript

/-- The number of slots of the stack. -/
def stackSize : Nat := 2048

/-- The greatest number of frames. -/
def maxFrames : Nat := 1024

/-- **A function that can be run**: a routine with the values it captured. -/
structure Closure where
  /-- Which closure this is. -/
  identity : Nat
  /-- The code and its needs. -/
  body : Routine
  /-- The captured values. -/
  captured : List Value
deriving Inhabited

/-- The closure as a value. -/
def Closure.value (c : Closure) : Value := .closure c.identity c.body c.captured

/-- **A closure being run.** -/
structure Frame where
  /-- The closure. -/
  closure : Closure
  /-- The offset of the next instruction. -/
  ip : Nat
  /-- The slot of the first local. -/
  base : Nat
deriving Inhabited

/-- **The state of the machine.** -/
structure Machine where
  /-- The pool of constants. -/
  constants : Array Value
  /-- The slots of the stack. -/
  stack : Array Value
  /-- The stack pointer: the first slot that is not in use. -/
  sp : Nat
  /-- The frames, the newest first; none once the top level has returned. -/
  frames : List Frame
  /-- The global variables. -/
  globals : Globals
  /-- The value discarded last, the result of the last expression statement. -/
  lastPopped : Value
  /-- The instructions still allowed, if they are counted. -/
  budget : Option Nat
  /-- The identity that the next closure will have. -/
  nextIdentity : Nat
  /-- What has been written. -/
  output : String
  /-- What has been recorded. -/
  journal : Journal
deriving Inhabited

namespace Machine

/-- **A machine about to run bytecode** against some globals. The top level is
run as a closure without locals. -/
def load (b : Bytecode) (globals : Globals) (budget : Option Nat) (nextIdentity : Nat)
    (journal : Journal) : Machine :=
  let top : Closure := ⟨nextIdentity, ⟨nextIdentity, b.code, 0, 0⟩, []⟩
  { constants := b.constants
    stack := Array.replicate stackSize .null
    sp := 0
    frames := [⟨top, 0, 0⟩]
    globals
    lastPopped := .null
    budget
    nextIdentity := nextIdentity + 1
    output := ""
    journal }

/-- The value of a slot. -/
def slot (m : Machine) (i : Nat) : Value := m.stack[i]?.getD .null

/-- The value on top of the stack. -/
def top? (m : Machine) : Option Value := if m.sp = 0 then none else some (m.slot (m.sp - 1))

/-- The machine with the next instruction of the newest frame elsewhere. -/
def jumpTo (m : Machine) (ip : Nat) : Machine :=
  match m.frames with
  | [] => m
  | frame :: callers => { m with frames := { frame with ip } :: callers }

end Machine

/-- **Why the machine stops before the end of its code.** -/
inductive Halt where
  /-- A run-time error. -/
  | error (cause : RuntimeError)
  /-- A return from a frame that has popped values from below the slot of its own
  closure: there is no place left for the result. -/
  | crash
  /-- It has not come to an end in the time it was given. -/
  | unfinished
deriving DecidableEq

/-- The wording of a halt. -/
def Halt.message : Halt → String
  | error cause => cause.message
  | crash => "stack corrupted"
  | unfinished => "run not finished"

/-- **A computation of the machine.** -/
abbrev Exec := EStateM Halt Machine

namespace Exec

/-- Halts with a run-time error. -/
def fail {α : Type} (cause : RuntimeError) : Exec α := throw (.error cause)

/-- The result of an operation on values. -/
def ofExcept {α : Type} : Except RuntimeError α → Exec α
  | .ok a => pure a
  | .error cause => fail cause

/-! ## The stack -/

/-- Pushes a value. -/
def push (v : Value) : Exec Unit := fun m =>
  if m.sp < stackSize then
    .ok () { m with stack := m.stack.setIfInBounds m.sp v, sp := m.sp + 1 }
  else .error (.error .stackOverflow) m

/-- Pops a value; its slot becomes null. -/
def pop : Exec Value := fun m =>
  if m.sp = 0 then .error (.error .stackUnderflow) m
  else
    let i := m.sp - 1
    let v := m.slot i
    .ok v { m with stack := m.stack.setIfInBounds i .null, sp := i }

/-- A stack with so many slots from `start` on made null. -/
def clear (stack : Array Value) (start : Nat) : (count : Nat) → Array Value
  | 0 => stack
  | count + 1 => clear (stack.setIfInBounds start .null) (start + 1) count

/-- Pops so many values, the lowest first; their slots become null. -/
def popMany (count : Nat) : Exec (List Value) := fun m =>
  if m.sp < count then .error (.error .stackUnderflow) m
  else
    let start := m.sp - count
    let values := (m.stack.extract start m.sp).toList
    .ok values { m with stack := clear m.stack start count, sp := start }

/-- Discards the values from a slot on; their slots become null. A slot above the
stack pointer is a crash. -/
def discardFrom (i : Nat) : Exec Unit := fun m =>
  if m.sp < i then .error .crash m
  else .ok () { m with stack := clear m.stack i (m.sp - i), sp := i }

/-! ## Calls -/

/-- Runs a closure whose arguments begin at a slot. -/
def enter (c : Closure) (base : Nat) (given : Nat) : Exec Unit := fun m =>
  if given ≠ c.body.params then .error (.error (.wrongArity c.body.params given)) m
  else if maxFrames ≤ m.frames.length then .error (.error .stackOverflow) m
  else if stackSize < base + c.body.locals then .error (.error .stackOverflow) m
  else .ok () { m with sp := base + c.body.locals, frames := ⟨c, 0, base⟩ :: m.frames }

/-- Calls a builtin function that stands in a slot, its arguments above it. -/
def callBuiltin (b : Builtin) (callee : Nat) : Exec Unit := do
  let m ← get
  let args := (m.stack.extract (callee + 1) m.sp).toList
  let result ← ofExcept (b.call args)
  modify fun m => { m with output := m.output ++ b.output args }
  discardFrom callee
  push result

/-- **Calls what stands below so many arguments.** -/
def call (count : Nat) : Exec Unit := do
  let m ← get
  if m.sp < count + 1 then fail .stackUnderflow
  else
    let callee := m.sp - (count + 1)
    match m.slot callee with
    | .closure identity body captured => enter ⟨identity, body, captured⟩ (callee + 1) count
    | .builtin b => callBuiltin b callee
    | v => fail (.notAFunction v.type)

/-- **Returns a value from the newest frame.** The result takes the place of the
closure that was called; the result of the top level is what was discarded
last. -/
def returnWith (v : Value) : Exec Unit := do
  match (← get).frames with
  | [] => fail .stackUnderflow
  | [_] => modify fun m => { m with frames := [], lastPopped := v }
  | frame :: callers =>
    modify fun m => { m with frames := callers }
    discardFrom (frame.base - 1)
    push v

end Exec

end StackScript
