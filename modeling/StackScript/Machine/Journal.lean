import StackScript.Machine.Error

/-!
# The journal

A run can keep a **journal** of what happens: each instruction as it is
dispatched, and what compiling and evaluating came to. A journal that is not
kept stays empty.
-/

namespace StackScript

/-- **Something worth recording.** -/
inductive Event where
  /-- A program was compiled. -/
  | compiled (statements bytes constants : Nat)
  /-- An instruction is about to be executed, so many frames deep. -/
  | dispatched (frames offset : Nat) (instruction : Instruction)
  /-- A program was evaluated. -/
  | evaluated (globals constants : Nat)
  /-- The globals were put back to what they were before a failed program. -/
  | rolledBack (cause : RuntimeError)
deriving DecidableEq

/-- The record of an event: its level of importance, and what happened. -/
def Event.text : Event → String
  | compiled statements bytes constants =>
    s!"DEBUG compiled {statements} statements: {bytes} bytes, {constants} constants"
  | dispatched frames offset instruction =>
    let depth := column 3 ' ' (toString frames)
    let place := column 4 '0' (toString offset)
    s!"TRACE {depth} {place} {instruction.text}"
  | evaluated globals constants =>
    s!"DEBUG eval ok: {globals} globals, {constants} constants"
  | rolledBack cause =>
    s!"WARN rolling back globals after runtime error: {cause.message}"

/-- **The events recorded so far**, if they are recorded at all. -/
structure Journal where
  /-- Whether events are recorded. -/
  kept : Bool
  /-- The events, in order. -/
  events : Array Event
deriving Inhabited

namespace Journal

/-- A journal without events. -/
def empty (kept : Bool) : Journal := ⟨kept, #[]⟩

/-- The journal after an event, which is looked at only if the journal is
kept. -/
@[inline] def record (j : Journal) (e : Unit → Event) : Journal :=
  if j.kept then { j with events := j.events.push (e ()) } else j

end Journal

end StackScript
