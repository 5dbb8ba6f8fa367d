import StackScript.Proofs.Machine.Effect

/-!
# Operands stand at the height of their code

When all functions of a machine run steady code, the stack pointer is known
wherever a run comes by: above the variables of the newest frame there are as
many operands as the height of the frame's code says, whichever way has led
there. The frames below have each been left by a call, so that the frame above
one begins where its own operands end.

`Stacked` says this of all frames at once. A round keeps it
(`Machine.Stands.step`), because an instruction moves the stack pointer as it
moves the height, and because jumps of steady code agree with the heights.
-/

namespace StackScript

open Instruction (encodeAll sizeAll rise Steady)

/-- **A routine whose code is steady.** -/
def Routine.Steady (body : Routine) : Prop :=
  ∃ is, body.code = (encodeAll is).toArray ∧ Instruction.Steady true 0 0 is

/-- The slot past a frame's variables. -/
def Frame.floor (frame : Frame) : Nat := frame.base + frame.closure.body.locals

/-- **A frame at some place of its code**, with as many operands above its
variables as the height there says. -/
structure Frame.Stands (frame : Frame) (sp : Nat) : Prop where
  /-- All functions that the frame can reach are steady. -/
  bodies : frame.closure.value.Bodies Routine.Steady
  /-- The instructions before the place, and those after it. -/
  place : ∃ front back, frame.closure.body.code = (encodeAll (front ++ back)).toArray ∧
    Steady true 0 0 (front ++ back) ∧ frame.ip = sizeAll front ∧ sp = frame.floor + rise front 0

/-- **A frame that has called another**, which begins at some slot: what was
called and its arguments were the topmost operands at the call. -/
structure Frame.HasCalled (frame : Frame) (base : Nat) : Prop where
  /-- There is a slot below. -/
  pos : 0 < base
  /-- The call that the frame has just executed. -/
  call : ∃ offset count, frame.closure.body.code.decodeAt offset = some (.ok (.call count)) ∧
    frame.ip = offset + 2 ∧
    base - 1 + (count.toNat + 1) = frame.floor + frame.closure.body.code.heightAt offset

/-- **All frames stand where they should**: each frame begins where the operands
of its caller end. -/
inductive Stacked : List Frame → Nat → Prop where
  | none {sp : Nat} : Stacked [] sp
  | top {frame : Frame} {sp : Nat} : frame.Stands sp → Stacked [frame] sp
  | call {frame caller : Frame} {callers : List Frame} {sp : Nat} : frame.Stands sp →
      caller.HasCalled frame.base → Stacked (caller :: callers) frame.base →
      Stacked (frame :: caller :: callers) sp

namespace Frame

variable {frame : Frame} {sp : Nat}

/-- A frame that is about to begin. -/
theorem stands_enter {closure : Closure} (h : closure.value.Bodies Routine.Steady) (base : Nat) :
    Frame.Stands ⟨closure, 0, base⟩ (base + closure.body.locals) := by
  refine ⟨h, ?_⟩
  cases h with
  | closure hbody =>
    obtain ⟨is, hcode, hsteady⟩ := hbody
    exact ⟨[], is, hcode, hsteady, rfl, rfl⟩

/-- The operands of a frame are as many as the height of its code says. -/
theorem Stands.sp_eq (h : frame.Stands sp) :
    sp = frame.floor + frame.closure.body.code.heightAt frame.ip := by
  obtain ⟨front, back, hcode, -, hip, hsp⟩ := h.place
  rw [hcode, hip, Code.heightAt_encodeAll]
  exact hsp

variable {i : Instruction}

/-- **A frame goes on** past an instruction, with what the instruction
leaves. -/
theorem Stands.next (h : frame.Stands sp)
    (hi : frame.closure.body.code.decodeAt frame.ip = some (.ok i)) (hjump : ∀ t, i ≠ .jump t) :
    (frame.past i).Stands (sp - i.takes + i.leaves) := by
  refine ⟨h.bodies, ?_⟩
  obtain ⟨front, back, hcode, hsteady, hip, hsp⟩ := h.place
  rw [hcode, hip] at hi
  obtain ⟨rest, rfl⟩ := Instruction.eq_cons_of_decodeAt hi
  have htakes : i.takes ≤ rise front 0 := hsteady.right.1
  refine ⟨front ++ [i], rest, ?_, ?_, ?_, ?_⟩
  · rw [List.append_assoc]
    exact hcode
  · rw [List.append_assoc]
    exact hsteady
  · rw [Instruction.sizeAll_append]
    exact congrArg (· + i.size) hip
  · rw [Instruction.rise_append, Instruction.rise_cons, Instruction.rise_nil,
      Instruction.after_of_ne_jump hjump, hsp]
    show _ = frame.floor + _
    omega

/-- A frame that is about to execute a call has called when it has. -/
theorem Stands.hasCalled (h : frame.Stands sp) {count : UInt8}
    (hi : frame.closure.body.code.decodeAt frame.ip = some (.ok (.call count)))
    (hcount : count.toNat + 1 ≤ sp) :
    (frame.past (.call count)).HasCalled (sp - (count.toNat + 1) + 1) := by
  refine ⟨Nat.succ_pos _, frame.ip, count, hi, rfl, ?_⟩
  rw [Nat.add_sub_cancel, Nat.sub_add_cancel hcount]
  exact h.sp_eq

/-- **A frame goes on elsewhere**, where the height is what a jump has left. -/
theorem Stands.jump (h : frame.Stands sp)
    (hi : frame.closure.body.code.decodeAt frame.ip = some (.ok i)) {t : UInt16}
    (ht : i.target? = some t) : Frame.Stands { frame with ip := t.toNat } (sp - i.takes) := by
  refine ⟨h.bodies, ?_⟩
  obtain ⟨front, back, hcode, hsteady, hip, hsp⟩ := h.place
  rw [hcode, hip] at hi
  obtain ⟨rest, rfl⟩ := Instruction.eq_cons_of_decodeAt hi
  have htakes : i.takes ≤ rise front 0 := hsteady.right.1
  obtain ⟨mid, rest', heq, -, hoffset, hrise⟩ := hsteady.target ht
  rw [heq] at hcode hsteady
  refine ⟨front ++ i :: mid, rest', hcode, hsteady, hoffset.trans (Nat.zero_add _), ?_⟩
  rw [hrise, hsp]
  show _ = frame.floor + _
  omega

end Frame

namespace Stacked

variable {frame frame' : Frame} {callers : List Frame} {sp sp' : Nat}

theorem stands (h : Stacked (frame :: callers) sp) : frame.Stands sp := by
  cases h with
  | top h => exact h
  | call h => exact h

/-- The newest frame goes on, and the frames below it stay. -/
theorem replace (h : Stacked (frame :: callers) sp) (hframe : frame'.Stands sp')
    (hbase : frame'.base = frame.base) : Stacked (frame' :: callers) sp' := by
  cases h with
  | top => exact .top hframe
  | call _ hcalled hcallers => exact .call hframe (hbase ▸ hcalled) (hbase ▸ hcallers)

/-- The newest frame returns, and leaves a result in the slot below it. -/
theorem callers_of_ne_nil (h : Stacked (frame :: callers) sp) (hne : callers ≠ []) :
    Stacked callers (frame.base - 1 + 1) := by
  cases h with
  | top => exact (hne rfl).elim
  | call _ hcalled hcallers =>
    rw [Nat.sub_add_cancel hcalled.pos]
    exact hcallers

/-- **Each frame begins where the operands of its caller end**, and what was
called is the last of these. -/
theorem caller {frames front : List Frame} {callee caller : Frame} (h : Stacked frames sp)
    (hframes : frames = front ++ callee :: caller :: callers) :
    caller.HasCalled callee.base ∧ caller.Stands callee.base := by
  induction h generalizing front with
  | none => cases front <;> cases hframes
  | top =>
    cases front with
    | nil => cases hframes
    | cons _ front => cases front <;> cases hframes
  | call _ hcalled hcallers ih =>
    cases front with
    | nil =>
      cases hframes
      exact ⟨hcalled, hcallers.stands⟩
    | cons _ front => exact ih (List.cons.inj hframes).2

end Stacked

/-- **A machine whose frames all stand where they should**, and whose functions
are all steady. -/
structure Machine.Stands (m : Machine) : Prop where
  /-- The functions. -/
  bodies : m.At Routine.Steady m.frames m.sp
  /-- The frames. -/
  stacked : Stacked m.frames m.sp

namespace Machine.Stands

variable {m m' : Machine}

theorem of_at {frames : List Frame} {sp : Nat} (h : m.At Routine.Steady frames sp)
    (hstacked : Stacked frames sp) : m.Stands :=
  ⟨{ h with frames := rfl, sp := rfl }, h.frames.symm ▸ h.sp.symm ▸ hstacked⟩

/-- **A round keeps the frames where they should stand.** -/
theorem step (h : m.Stands) {running : Bool} (hstep : Exec.step m = .ok running m') :
    m'.Stands := by
  obtain ⟨hbodies, hstacked⟩ := h
  cases hframes : m.frames with
  | nil =>
    rw [Exec.step_of_no_frames hframes] at hstep
    cases hstep
    exact ⟨hbodies, hstacked⟩
  | cons frame callers =>
    rw [hframes] at hbodies hstacked
    have hframe := hstacked.stands
    rcases hbodies.step hframe.bodies _ _ hstep with rfl | ⟨hne, hm'⟩ | ⟨i, hi, hm'⟩
    · exact of_at hbodies hstacked
    · exact of_at hm' (hstacked.callers_of_ne_nil hne)
    · -- In each case the newest frame is one that stands, and the frames below it have not moved.
      cases hm' with
      | next hjump _ hm' => exact of_at hm' (hstacked.replace (hframe.next hi hjump) rfl)
      | jump ht _ hm' => exact of_at hm' (hstacked.replace (hframe.jump hi ht) rfl)
      | enter hcall htakes hclosure hm' =>
        subst hcall
        exact of_at hm' (.call (Frame.stands_enter hclosure _) (hframe.hasCalled hi htakes)
          (hstacked.replace (hframe.next hi nofun) rfl))
      | back _ hne hm' => exact of_at hm' (hstacked.callers_of_ne_nil hne)
      | ended _ hm' => exact of_at hm' .none

/-- **Wherever a run comes by, the frames stand where they should.** -/
theorem visits (h : m.Stands) (hm' : Visits m m') : m'.Stands := by
  induction hm' with
  | here => exact h
  | next hstep _ ih => exact ih (h.step hstep)

end Machine.Stands

end StackScript
