import StackScript.Proofs.Machine.Safety

/-!
# The machine is robust

Whatever bytes a machine is given as code, and whatever values as constants and
globals, it never looks at a place that is not there: it does the same as the
machine that crashes at such a place. Its stack keeps its size, and neither the
stack pointer nor the number of frames grows beyond its bound.

There is one exception. Code may pop values that are not its own, and a function
that has popped what is below its own closure leaves no slot for its result:
then the return crashes. `Checked.Robust` says of a computation when this
happens, besides that it agrees with its checked counterpart.
-/

namespace StackScript

open Exec (bind_of_ok bind_of_error)

namespace Checked

open Machine (FitAt)

section

variable {m : Machine}

/-! ## Returns -/

/-- **A computation and its checked counterpart come to the same** from a
machine on, and they crash under a condition exactly. -/
structure Robust {α : Type} (P : Prop) (c x : Exec α) (m : Machine) : Prop where
  /-- They come to the same. -/
  agrees : c m = x m
  /-- What they leave is fit, whether they halt or not. -/
  keeps : (Exec.remains (x m)).Fit
  /-- They crash under the condition. -/
  crash : (∃ m', x m = .error .crash m') ↔ P

namespace Robust

variable {α : Type} {P Q : Prop} {c x c' x' : Exec α} {m' : Machine}

/-- A round that looks only at places that are there does not crash, so it must
not be one of those that do. -/
theorem of_safe (h : Safe Machine.Fit c x m) (hP : ¬P) : Robust P c x m :=
  ⟨h.agrees, h.keeps, ⟨fun ⟨m', heq⟩ => absurd heq (h.calm m'), fun h => absurd h hP⟩⟩

theorem of_eq (h : Robust P c' x' m') (hc : c m = c' m') (hx : x m = x' m') (hPQ : P ↔ Q) :
    Robust Q c x m := by
  refine ⟨?_, ?_, ?_⟩
  · rw [hc, hx]
    exact h.agrees
  · rw [hx]
    exact h.keeps
  · rw [hx, ← hPQ]
    exact h.crash

/-- A result that is always the same comes after it. -/
theorem bind_pure {c x : Exec Unit} (a : α) (h : Robust P c x m) :
    Robust P (c >>= fun _ => pure a) (x >>= fun _ => pure a) m := by
  have hkeeps := h.keeps
  have hcrash := h.crash
  have hagrees : (c >>= fun _ => pure a : Exec α) m = (x >>= fun _ => pure a) m := by
    show EStateM.bind c _ m = EStateM.bind x _ m
    rw [EStateM.bind, EStateM.bind, h.agrees]
  cases hres : x m with
  | ok u m' =>
    rw [hres] at hkeeps hcrash
    refine ⟨hagrees, ?_, ?_⟩
    · rw [bind_of_ok _ hres]
      exact hkeeps
    · rw [bind_of_ok _ hres, ← hcrash]
      constructor <;> rintro ⟨_, ⟨⟩⟩
  | error e m' =>
    rw [hres] at hkeeps hcrash
    refine ⟨hagrees, ?_, ?_⟩
    · rw [bind_of_error _ hres]
      exact hkeeps
    · rw [bind_of_error _ hres, ← hcrash]
      constructor
      · rintro ⟨_, ⟨⟩⟩
        exact ⟨m', rfl⟩
      · rintro ⟨_, ⟨⟩⟩
        exact ⟨m', rfl⟩

end Robust

/-- A result takes the place of what stands from some slot on. There is no such
place if the stack does not reach up to the slot. -/
theorem robust_replaceFrom (h : m.Fit) (i : Nat) (v : Value) :
    Robust (m.sp < i) (do discardFrom i; push v) (do Exec.discardFrom i; Exec.push v) m := by
  by_cases hsp : m.sp < i
  · have hcrash : Exec.discardFrom i m = .error .crash m := by rw [Exec.discardFrom, if_pos hsp]
    have hx := bind_of_error (fun _ => Exec.push v) hcrash
    refine ⟨?_, ?_, ?_⟩
    · rw [hx, bind_of_error _ ((discardFrom_eq h i).trans hcrash)]
    · rw [hx]
      exact h
    · rw [hx]
      exact ⟨fun _ => hsp, fun _ => ⟨m, rfl⟩⟩
  · have hsafe := (safe_discardFrom h.at (Nat.not_lt.1 hsp)).andThen fun _ _ h => safe_push h v
    exact .of_safe (hsafe.mono fun _ => FitAt.toFit) hsp

/-- **The one exception.** A return from a function crashes if and only if
values have been popped from below the slot of what was called; a return from
the top level does not crash. -/
theorem robust_returnWith {newest : Frame} {callers : List Frame} (h : m.FitAt (newest :: callers))
    (v : Value) :
    Robust (callers ≠ [] ∧ m.sp < newest.base - 1) (returnWith v) (Exec.returnWith v) m := by
  have hx := Exec.returnWith_eq v m
  have hreturns := h.returns
  rw [h.frames] at hx
  cases callers with
  | nil =>
    refine .of_safe (.of_ok (returnWith_of_top h.frames v) hx ?_) fun hP => hP.1 rfl
    exact { hreturns with }
  | cons caller callers =>
    -- There is a frame below, so that there is a slot below the variables of this one.
    obtain ⟨i, hi⟩ : ∃ i, newest.base = i + 1 := by
      refine Nat.exists_eq_add_of_le' (h.bases newest ?_)
      rw [h.frames]
      exact List.mem_cons_self
    have hbelow (m : Machine) : below newest.base m = .ok i m := by
      rw [hi]
      rfl
    refine (robust_replaceFrom hreturns.toFit i v).of_eq ?_ (hx.trans ?_) ?_
    · rw [returnWith_of_function h.frames, bind_of_ok _ (hbelow _)]
    · show (do Exec.discardFrom (newest.base - 1); Exec.push v : Exec Unit) _ = _
      rw [hi, Nat.add_sub_cancel]
    · simp [hi]

end

end Checked

/-! ## Rounds -/

/-- The stack pointer with which an instruction returns, if it does. -/
def Instruction.returnsAt? (sp : Nat) : Instruction → Option Nat
  | .returnNull => some sp
  | .returnValue => if sp = 0 then none else some (sp - 1)
  | _ => none

/-- **The stack pointer with which the next round returns** from the newest
frame, if it does. Where the code of a function ends without a return, the
function returns there. -/
def Machine.returnsAt? (m : Machine) (frame : Frame) : Option Nat :=
  match frame.closure.body.code.decodeAt frame.ip with
  | none => some m.sp
  | some (.error _) => none
  | some (.ok i) => if m.budget = some 0 then none else i.returnsAt? m.sp

namespace Checked

open Machine (FitAt)

section

variable {m : Machine} {newest : Frame} {callers : List Frame}

/-- **What an instruction looks at is there**, unless it is a return. -/
theorem robust_execute {i : Instruction} (h : m.FitAt (newest.past i :: callers)) :
    Robust (callers ≠ [] ∧ ∃ sp, i.returnsAt? m.sp = some sp ∧ sp < newest.base - 1) (execute i)
      (Exec.execute newest i) m := by
  by_cases hnull : i = .returnNull
  · subst hnull
    exact (robust_returnWith h .null).of_eq rfl rfl (by simp [Instruction.returnsAt?, Frame.past])
  by_cases hvalue : i = .returnValue
  · subst hvalue
    have hpop := safe_pop h
    by_cases hsp : m.sp = 0
    · have hx : Exec.pop m = .error (.error .stackUnderflow) m := by rw [Exec.pop, if_pos hsp]
      have hc := bind_of_error returnWith (hpop.agrees.trans hx)
      exact .of_safe (.of_fail hc (bind_of_error _ hx) h.toFit)
        (by simp [Instruction.returnsAt?, hsp])
    · obtain ⟨v, m', hx, hm'⟩ : ∃ v m', Exec.pop m = .ok v m' ∧ m'.sp = m.sp - 1 :=
        ⟨_, _, by rw [Exec.pop, if_neg hsp], rfl⟩
      have h' : m'.FitAt (newest.past .returnValue :: callers) := by
        have hkeeps := hpop.keeps
        rw [hx] at hkeeps
        exact hkeeps
      refine (robust_returnWith h' v).of_eq (bind_of_ok _ (hpop.agrees.trans hx))
        (bind_of_ok _ hx) ?_
      simp [Instruction.returnsAt?, Frame.past, hsp, hm']
  · refine .of_safe (safe_execute h hvalue hnull) ?_
    rintro ⟨-, sp, hsp, -⟩
    cases i with
    | returnNull => exact hnull rfl
    | returnValue => exact hvalue rfl
    | _ => cases hsp

/-- Only an exhausted budget keeps an instruction from being executed. -/
theorem spend_cases (m : Machine) :
    m.budget = some 0 ∧ Exec.spend m = .error (.error .budgetExhausted) m ∨
      m.budget ≠ some 0 ∧ ∃ budget, Exec.spend m = .ok () { m with budget } := by
  unfold Exec.spend
  cases hbudget : m.budget with
  | none => exact .inr ⟨nofun, none, by cases m; cases hbudget; rfl⟩
  | some n =>
    cases n with
    | zero => exact .inl ⟨rfl, rfl⟩
    | succ n => exact .inr ⟨by simp, some n, rfl⟩

/-- A round in which an instruction is executed. -/
theorem robust_round (h : m.FitAt (newest :: callers)) (i : Instruction) :
    Robust (callers ≠ [] ∧ m.budget ≠ some 0 ∧
        ∃ sp, i.returnsAt? m.sp = some sp ∧ sp < newest.base - 1)
      (do Exec.spend; advance i; execute i; pure true)
      (do Exec.spend; Exec.advance newest callers i; Exec.execute newest i; pure true) m := by
  rcases spend_cases m with ⟨hbudget, hspend⟩ | ⟨hbudget, budget, hspend⟩
  · refine .of_safe (.of_fail (bind_of_error _ hspend) (bind_of_error _ hspend) h.toFit) ?_
    exact fun hP => hP.2.1 hbudget
  · obtain ⟨m', hadvance, hm', hsp⟩ : ∃ m',
        Exec.advance newest callers i { m with budget } = .ok () m' ∧
        m'.FitAt (newest.past i :: callers) ∧ m'.sp = m.sp :=
      ⟨_, rfl, { h.goesOn (newest.ip + i.size) with }, rfl⟩
    have hframes : { m with budget }.frames = newest :: callers := h.frames
    refine ((robust_execute hm').bind_pure true).of_eq ?_ ?_ ?_
    · rw [bind_of_ok _ hspend, bind_of_ok _ ((advance_eq hframes i).trans hadvance)]
    · rw [bind_of_ok _ hspend, bind_of_ok _ hadvance]
    · simp [hsp, hbudget]

/-- A round, when there are frames. -/
theorem robust_step_of_frames (h : m.FitAt (newest :: callers)) :
    Robust (callers ≠ [] ∧ ∃ sp, m.returnsAt? newest = some sp ∧ sp < newest.base - 1) step
      Exec.step m := by
  have hx := Exec.step_of_frames h.frames
  have hc := step_of_frames h.frames
  rw [Machine.returnsAt?]
  cases hdecode : newest.closure.body.code.decodeAt newest.ip with
  | none =>
    rw [hdecode] at hx
    rw [if_pos (Code.decodeAt_eq_none_iff.1 hdecode)] at hc
    cases callers with
    | nil => exact .of_safe (.of_ok hc hx h.toFit) fun hP => hP.1 rfl
    | cons caller callers =>
      exact ((robust_returnWith h .null).bind_pure true).of_eq hc hx (by simp)
  | some r =>
    rw [hdecode] at hx
    rw [if_neg (Nat.not_le.2 (Code.lt_size_of_decodeAt hdecode))] at hc
    have hfetch := fetch_eq hdecode m
    cases r with
    | error cause =>
      exact .of_safe (.of_fail (hc.trans (bind_of_error _ hfetch)) hx h.toFit) (by simp)
    | ok i =>
      refine (robust_round h i).of_eq (hc.trans (bind_of_ok _ hfetch)) hx ?_
      by_cases hbudget : m.budget = some 0
      · simp [hbudget]
      · simp [hbudget]

/-- **A round looks only at places that are there**, unless it returns from a
function. -/
theorem robust_step (h : m.Fit) :
    Robust (∃ frame caller callers sp, m.frames = frame :: caller :: callers ∧
      m.returnsAt? frame = some sp ∧ sp < frame.base - 1) step Exec.step m := by
  cases hframes : m.frames with
  | nil =>
    have hc : step m = .ok false m := by
      cases m
      cases hframes
      rfl
    exact .of_safe (.of_ok hc (Exec.step_of_no_frames hframes) h) (by simp)
  | cons newest callers =>
    refine (robust_step_of_frames ⟨h, hframes⟩).of_eq rfl rfl ?_
    cases callers with
    | nil => simp
    | cons caller callers => simp

end

end Checked

/-! ## Runs -/

namespace Machine

/-- **The machines that come about**, round by round, from any code, constants
and globals. A machine that has halted, for whatever reason, may be run
again. -/
inductive Reachable : Machine → Prop where
  | load (b : Bytecode) (globals : Globals) (budget : Option Nat) (identity : Nat)
      (journal : Journal) : Reachable (load b globals budget identity journal)
  | step {m : Machine} : Reachable m → Reachable (Exec.remains (Exec.step m))

namespace Reachable

variable {m : Machine}

/-- Rounds lead from machines that come about to such machines. -/
theorem rounds (h : m.Reachable) (n : Nat) : (Exec.remains (Exec.rounds n m)).Reachable := by
  induction n generalizing m with
  | zero => exact h
  | succ n ih =>
    have hstep := h.step
    rw [Exec.rounds_succ]
    cases hres : Exec.step m with
    | ok running m' =>
      rw [hres] at hstep
      cases running with
      | true => exact ih hstep
      | false => exact hstep
    | error e m' =>
      rw [hres] at hstep
      exact hstep

/-- **A run leads to machines that come about so**, and from there to the next
run. -/
theorem run (h : m.Reachable) : m.run.2.Reachable := by
  have hrounds := h.rounds (m.patience * Exec.stretch)
  rw [← Exec.stretches_eq] at hrounds
  unfold Machine.run
  split
  all_goals
    next heq =>
    rw [heq] at hrounds
    exact hrounds

/-- **Every machine is fit.** -/
theorem fit (h : m.Reachable) : m.Fit := by
  induction h with
  | load b globals budget identity journal =>
    exact ⟨Array.size_replicate .., Nat.zero_le _, (by decide : 1 ≤ maxFrames), nofun⟩
  | step _ ih => exact (Checked.robust_step ih).keeps

end Reachable

/-- **The machine is robust on arbitrary code.** However often a machine is run,
on whatever code, constants and globals, and with whatever budget: its stack has
all its slots, the stack pointer and the number of frames are within their
bounds, there is a slot below every frame but the one of the top level, and the
next round does the same as if every place were tested before it is looked at.
The only round that crashes is a return from a function when values have been
popped from below the slot of what was called. -/
theorem robust_on_arbitrary_code {m : Machine} (h : m.Reachable) :
    m.stack.size = stackSize ∧ m.sp ≤ stackSize ∧ m.frames.length ≤ maxFrames ∧
      (∀ frame ∈ m.frames.dropLast, 1 ≤ frame.base) ∧
      Checked.step m = Exec.step m ∧
      ((∃ m', Checked.step m = .error .crash m') ↔
        ∃ frame caller callers sp, m.frames = frame :: caller :: callers ∧
          m.returnsAt? frame = some sp ∧ sp < frame.base - 1) ∧
      m.run.2.Reachable := by
  have hfit := h.fit
  have hrobust := Checked.robust_step hfit
  refine ⟨hfit.stack, hfit.sp, hfit.depth, hfit.bases, hrobust.agrees, ?_, h.run⟩
  rw [hrobust.agrees]
  exact hrobust.crash

/-- The function discards what is below its frame and returns. Both machines
crash then, and in the same way. -/
theorem robust_on_arbitrary_code_popped :
    let body : Routine := ⟨0, (Instruction.encodeAll [.pop, .pop, .returnNull]).toArray, 0, 0⟩
    let code : Code := (Instruction.encodeAll [.pushTrue, .constant 0, .call 0]).toArray
    let m :=
      Exec.remains (Exec.rounds 5 (load ⟨code, #[.closure 1 body []]⟩ .empty (some 6) 2 default))
    m.sp = 0 ∧ m.frames.map (·.base) = [2, 0] ∧ Checked.step m = Exec.step m ∧
      (∃ m', Checked.step m = .error .crash m') ∧ m.run.2.Reachable := by
  intro body code m
  have hsp : m.sp = 0 := by decide +kernel
  have hbases : m.frames.map (·.base) = [2, 0] := by decide +kernel
  have hreturns : m.frames.head?.bind m.returnsAt? = some 0 := by decide +kernel
  obtain ⟨frame, rest, hframes, hbase, hrest⟩ := List.map_eq_cons_iff.1 hbases
  obtain ⟨caller, callers, rfl, -, -⟩ := List.map_eq_cons_iff.1 hrest
  rw [hframes] at hreturns
  obtain ⟨-, -, -, -, hagrees, hcrash, hrun⟩ :=
    robust_on_arbitrary_code ((Reachable.load _ _ _ _ _).rounds 5 : m.Reachable)
  refine ⟨hsp, hbases, hagrees, hcrash.2 ?_, hrun⟩
  exact ⟨frame, caller, callers, 0, hframes, hreturns, by rw [hbase]; decide⟩

end Machine

end StackScript
