import StackScript.Proofs.Machine.Stack

/-!
# Runs of the machine

A **path** is a run of so many rounds in each of which an instruction is
executed (`Path`). A round that merely comes to the end of some code is no part
of a path: when a path has been found that leads to the end of the top level,
then no function has run off the end of its code.

What code does is stated as `Leads`: from a machine, within so many rounds, the
machine comes to where a condition holds, or it halts in a way that is allowed.
Such statements are put together one after the other (`Leads.bind`), and at the
end they say what a run comes to (`Leads.run`).
-/

namespace StackScript

/-- The machine is about to execute an instruction. -/
def Machine.Poised (m : Machine) : Prop :=
  ∃ frame callers i, m.frames = frame :: callers ∧
    frame.closure.body.code.decodeAt frame.ip = some (.ok i)

/-- **A run of so many rounds**, each of which executes an instruction. -/
inductive Path : Nat → Machine → Machine → Prop where
  | refl (m : Machine) : Path 0 m m
  | step {n : Nat} {m m₁ m₂ : Machine} : m.Poised → Exec.step m = .ok true m₁ → Path n m₁ m₂ →
      Path (n + 1) m m₂

/-- Two paths in a row are one, and rounds add up. -/
theorem Path.trans {k n : Nat} {m m₁ m₂ : Machine} (h₁ : Path k m m₁) (h₂ : Path n m₁ m₂) :
    Path (k + n) m m₂ := by
  induction h₁ with
  | refl => exact (Nat.zero_add n).symm ▸ h₂
  | step hpoised hstep _ ih =>
    rw [Nat.add_right_comm]
    exact .step hpoised hstep (ih h₂)

/-- **Where a machine comes to** within so many rounds: a condition holds, or it
has halted, in a way that is allowed. -/
def Leads (m : Machine) (cost : Nat) (Q : Machine → Prop) (E : Halt → Machine → Prop) : Prop :=
  ∃ n m', n ≤ cost ∧ Path n m m' ∧
    (Q m' ∨ ∃ e m'', n < cost ∧ m'.Poised ∧ Exec.step m' = .error e m'' ∧ E e m'')

namespace Leads

variable {m m' : Machine} {cost cost' : Nat} {Q Q' : Machine → Prop} {E E' : Halt → Machine → Prop}

/-- A machine that meets the condition has come there in no rounds. -/
theorem here (h : Q m) : Leads m cost Q E := ⟨0, m, Nat.zero_le _, .refl m, .inl h⟩

/-- More rounds may be allowed, and less may be asked. -/
theorem mono (h : Leads m cost Q E) (hcost : cost ≤ cost') (hQ : ∀ m, Q m → Q' m)
    (hE : ∀ e m, E e m → E' e m) : Leads m cost' Q' E' := by
  obtain ⟨n, m', hn, hpath, hend⟩ := h
  refine ⟨n, m', Nat.le_trans hn hcost, hpath, hend.imp (hQ m') ?_⟩
  rintro ⟨e, m'', hlt, hpoised, hstep, he⟩
  exact ⟨e, m'', Nat.lt_of_lt_of_le hlt hcost, hpoised, hstep, hE e m'' he⟩

/-- One stretch of a run follows another. -/
theorem bind (h : Leads m cost Q E) (hnext : ∀ m', Q m' → Leads m' cost' Q' E) :
    Leads m (cost + cost') Q' E := by
  obtain ⟨n, m₁, hn, hpath, hQ | ⟨e, m₂, hlt, hpoised, hstep, he⟩⟩ := h
  · obtain ⟨k, m₂, hk, hpath', hend⟩ := hnext m₁ hQ
    refine ⟨n + k, m₂, Nat.add_le_add hn hk, hpath.trans hpath', hend.imp_right ?_⟩
    rintro ⟨e, m₃, hlt, hpoised, hstep, he⟩
    exact ⟨e, m₃, Nat.add_lt_add_of_le_of_lt hn hlt, hpoised, hstep, he⟩
  · exact ⟨n, m₁, by omega, hpath, .inr ⟨e, m₂, by omega, hpoised, hstep, he⟩⟩

/-- A round more at the beginning. -/
theorem of_step {m₁ : Machine} (hpoised : m.Poised) (hstep : Exec.step m = .ok true m₁)
    (h : Leads m₁ cost Q E) : Leads m (cost + 1) Q E := by
  obtain ⟨n, m', hn, hpath, hend⟩ := h
  refine ⟨n + 1, m', Nat.succ_le_succ hn, .step hpoised hstep hpath, hend.imp_right ?_⟩
  rintro ⟨e, m'', hlt, hrest⟩
  exact ⟨e, m'', Nat.succ_lt_succ hlt, hrest⟩

/-- A round that halts ends the matter, if it halts in a way that is allowed. -/
theorem of_halt {e : Halt} (hpoised : m.Poised) (hstep : Exec.step m = .error e m') (h : E e m') :
    Leads m (cost + 1) Q E :=
  ⟨0, m, Nat.zero_le _, .refl m, .inr ⟨e, m', Nat.succ_pos _, hpoised, hstep, h⟩⟩

end Leads

/-! ## One round -/

namespace Exec

/-- Nothing runs once the top level has returned. -/
theorem step_of_no_frames {m : Machine} (hframes : m.frames = []) : step m = .ok false m := by
  cases m
  cases hframes
  rfl

/-- What a round does is decided by what stands at the newest frame's place in
its code. -/
theorem step_of_frames {m : Machine} {frame : Frame} {callers : List Frame}
    (hframes : m.frames = frame :: callers) :
    step m = (match frame.closure.body.code.decodeAt frame.ip with
      | none => if callers.isEmpty then pure false else do
          returnWith .null
          pure true
      | some (.error cause) => fail (.invalidCode cause)
      | some (.ok i) => do
          spend
          advance frame callers i
          execute frame i
          pure true : Exec Bool) m := by
  cases m
  cases hframes
  rfl

/-- The pool decides what a constant is. -/
theorem constant_eq (op : Op) (index : Nat) (m : Machine) :
    constant op index m = (match m.constants[index]? with
      | some v => pure v
      | none => fail (.invalidOperand op index) : Exec Value) m := rfl

/-- A constant of the pool is loaded. -/
theorem constant_of_some (op : Op) {index : Nat} {m : Machine} {v : Value}
    (h : m.constants[index]? = some v) : constant op index m = .ok v m := by
  rw [constant_eq, h]
  rfl

/-- The top level ends where its code ends. -/
theorem step_of_end {m : Machine} {frame : Frame} (hframes : m.frames = [frame])
    (hcode : frame.closure.body.code.decodeAt frame.ip = none) : step m = .ok false m := by
  rw [step_of_frames hframes, hcode]
  rfl

end Exec

/-- **The machine is between two statements of the top level**, at an offset of
some code: nothing is on the stack, and nothing has been called. -/
structure Machine.Idle (m : Machine) (code : Code) (ip : Nat) : Prop where
  /-- All slots are null. -/
  stack : m.stack = padded []
  /-- None is in use. -/
  sp : m.sp = 0
  /-- The only frame is the top level's, which has no variables. -/
  frames : ∃ closure, m.frames = [⟨closure, ip, 0⟩] ∧ closure.body.code = code ∧
    closure.body.locals = 0 ∧ closure.captured = []

/-- A machine that has been loaded is about to begin the first statement of its
program. -/
theorem Machine.idle_load (b : Bytecode) (globals : Globals) (budget : Option Nat) (identity : Nat)
    (journal : Journal) : (load b globals budget identity journal).Idle b.code 0 :=
  ⟨rfl, rfl, _, rfl, rfl, rfl, rfl⟩

/-- A run is over where the code of the top level ends. -/
theorem Machine.Idle.step {m : Machine} {code : Code} {ip : Nat} (h : m.Idle code ip)
    (hend : code.decodeAt ip = none) : Exec.step m = .ok false m := by
  obtain ⟨closure, hframes, rfl, -⟩ := h.frames
  exact Exec.step_of_end hframes hend

/-- Whether an error tells of code that no compiler would write. -/
def RuntimeError.ofBadCode : RuntimeError → Bool
  | stackUnderflow | unresolvedBuiltin .. | invalidCode .. | invalidOperand .. => true
  | _ => false

/-- **How the run of a good program ends**: at the end of its code with nothing
left behind, or with an error that does not tell of bad code. -/
def Machine.EndsWell (m : Machine) (code : Code) : Except Halt Unit → Prop
  | .ok _ => m.Idle code code.size
  | .error (.error e) => e.ofBadCode = false
  | .error _ => False

/-- The machine past an instruction that it is about to execute. -/
def Machine.past (m : Machine) (frame : Frame) (callers : List Frame) (i : Instruction)
    (budget : Option Nat) (journal : Journal) : Machine :=
  { m with
    frames := { frame with ip := frame.ip + i.size } :: callers
    budget
    journal }

/-- What an instruction has come to: a condition holds, or it has halted in a
way that is allowed. -/
def Lands (Q : Machine → Prop) (E : Halt → Machine → Prop) : EStateM.Result Halt Machine Unit → Prop
  | .ok _ m => Q m
  | .error e m => E e m

theorem Lands.mono {Q Q' : Machine → Prop} {E E' : Halt → Machine → Prop}
    {result : EStateM.Result Halt Machine Unit} (h : Lands Q E result) (hQ : ∀ m, Q m → Q' m)
    (hE : ∀ e m, E e m → E' e m) : Lands Q' E' result := by
  cases result with
  | ok _ m => exact hQ m h
  | error e m => exact hE e m h

/-- **What one instruction leads to**: nothing if the budget is spent, and
otherwise what executing it comes to. -/
theorem Leads.execute {m : Machine} {Q : Machine → Prop} {E : Halt → Machine → Prop}
    {frame : Frame} {callers : List Frame} {i : Instruction}
    (hframes : m.frames = frame :: callers)
    (hcode : frame.closure.body.code.decodeAt frame.ip = some (.ok i))
    (hspent : m.budget = some 0 → E (.error .budgetExhausted) m)
    (hexec : ∀ budget journal, (m.budget = none → budget = none) →
      Lands Q E (Exec.execute frame i (m.past frame callers i budget journal))) :
    Leads m 1 Q E := by
  have hpoised : m.Poised := ⟨frame, callers, i, hframes, hcode⟩
  have hstep := Exec.step_of_frames hframes
  rw [hcode] at hstep
  dsimp only at hstep
  by_cases hzero : m.budget = some 0
  · refine of_halt hpoised (hstep.trans (Exec.bind_of_error _ ?_)) (hspent hzero)
    rw [Exec.spend, hzero]
  · -- What is left of the budget does not matter, unless there is none.
    obtain ⟨budget, hfree, hspend⟩ : ∃ budget, (m.budget = none → budget = none) ∧
        Exec.spend m = .ok () { m with budget } := by
      unfold Exec.spend
      split
      · next hb => exact ⟨m.budget, id, rfl⟩
      · next hb => exact (hzero hb).elim
      · next n hb => exact ⟨some n, fun h => (by rw [hb] at h; cases h), rfl⟩
    have hnext := hexec budget (m.journal.record fun _ =>
      .dispatched (callers.length + 1) frame.ip i) hfree
    rw [Exec.bind_of_ok _ hspend] at hstep
    have hadvance : Exec.advance frame callers i { m with budget } =
      .ok () (m.past frame callers i budget (m.journal.record fun _ =>
        .dispatched (callers.length + 1) frame.ip i)) := rfl
    rw [Exec.bind_of_ok _ hadvance] at hstep
    cases heq : Exec.execute frame i (m.past frame callers i budget _) with
    | ok _ m' =>
      rw [heq] at hnext
      rw [Exec.bind_of_ok _ heq] at hstep
      exact of_step hpoised hstep (here hnext)
    | error e m' =>
      rw [heq] at hnext
      rw [Exec.bind_of_error _ heq] at hstep
      exact of_halt hpoised hstep hnext

/-! ## Whole runs -/

namespace Exec

/-- One round, and then the others, unless the run is over. -/
theorem rounds_succ (n : Nat) (m : Machine) :
    rounds (n + 1) m = match step m with
      | .ok true m' => rounds n m'
      | .ok false m' => .ok false m'
      | .error e m' => .error e m' := by
  rw [rounds]
  show EStateM.bind step _ m = _
  unfold EStateM.bind
  cases step m with
  | ok running m' => cases running <;> rfl
  | error e m' => rfl

/-- The rounds of a path can be taken off the front. -/
theorem rounds_of_path {n : Nat} {m m' : Machine} (h : Path n m m') (k : Nat) :
    rounds (n + k) m = rounds k m' := by
  induction h with
  | refl => rw [Nat.zero_add]
  | step _ hstep _ ih =>
    rw [Nat.add_right_comm, rounds_succ, hstep]
    exact ih

/-- **Rounds can be counted in two parts.** A run that is over in the first part
stays as it is. -/
theorem rounds_add (a b : Nat) (m : Machine) :
    rounds (a + b) m = match rounds a m with
      | .ok true m' => rounds b m'
      | .ok false m' => .ok false m'
      | .error e m' => .error e m' := by
  induction a generalizing m with
  | zero => rw [Nat.zero_add]; rfl
  | succ a ih =>
    rw [Nat.add_right_comm, rounds_succ, rounds_succ]
    cases step m with
    | ok running m' =>
      cases running with
      | true => exact ih m'
      | false => rfl
    | error e m' => rfl

/-- Stretches of rounds are rounds. -/
theorem stretches_eq (n : Nat) (m : Machine) : stretches n m = rounds (n * stretch) m := by
  induction n generalizing m with
  | zero => rw [Nat.zero_mul]; rfl
  | succ n ih =>
    rw [Nat.succ_mul, Nat.add_comm (n * stretch), rounds_add]
    show EStateM.bind (rounds stretch) _ m = _
    unfold EStateM.bind
    cases rounds stretch m with
    | ok running m' =>
      cases running with
      | true => exact ih m'
      | false => rfl
    | error e m' => rfl

end Exec

/-- **A run that is over**: it has come to the end of the code, or an
instruction has halted it. -/
inductive Finishes (m : Machine) : Except Halt Unit → Machine → Prop where
  | ends {n : Nat} {x : Machine} : Path n m x → Exec.step x = .ok false x → Finishes m (.ok ()) x
  | halts {n : Nat} {x y : Machine} {e : Halt} : Path n m x → x.Poised → Exec.step x = .error e y →
      Finishes m (.error e) y

namespace Finishes

variable {m m' : Machine} {outcome outcome' : Except Halt Unit} {y y' : Machine}

/-- A run that is over later is over. -/
theorem of_path {n : Nat} (hpath : Path n m m') (h : Finishes m' outcome y) :
    Finishes m outcome y := by
  cases h with
  | ends hpath' hstep => exact .ends (hpath.trans hpath') hstep
  | halts hpath' hpoised hstep => exact .halts (hpath.trans hpath') hpoised hstep

/-- What the rounds of a run come to. -/
def result (y : Machine) : Except Halt Unit → EStateM.Result Halt Machine Bool
  | .ok _ => .ok false y
  | .error e => .error e y

/-- A run that is over is over after some number of rounds. -/
theorem rounds (h : Finishes m outcome y) : ∃ n, Exec.rounds n m = result y outcome := by
  cases h with
  | @ends n x hpath hstep =>
    exact ⟨n + 1, by rw [Exec.rounds_of_path hpath, Exec.rounds_succ, hstep]; rfl⟩
  | @halts n x _ e hpath _ hstep =>
    exact ⟨n + 1, by rw [Exec.rounds_of_path hpath, Exec.rounds_succ, hstep]; rfl⟩

/-- More rounds change nothing. -/
theorem rounds_add {n : Nat} (h : Exec.rounds n m = result y outcome) (k : Nat) :
    Exec.rounds (n + k) m = result y outcome := by
  rw [Exec.rounds_add, h]
  cases outcome <;> rfl

/-- **A run is over in one way only.** -/
theorem unique (h : Finishes m outcome y) (h' : Finishes m outcome' y') :
    outcome = outcome' ∧ y = y' := by
  obtain ⟨n, hn⟩ := h.rounds
  obtain ⟨k, hk⟩ := h'.rounds
  have heq := (rounds_add hn k).symm.trans (Nat.add_comm n k ▸ rounds_add hk n)
  cases outcome <;> cases outcome' <;> cases heq <;> exact ⟨rfl, rfl⟩

end Finishes

/-- A run that is over in time is what the machine's run comes to. -/
theorem Machine.run_of_rounds {m y : Machine} {outcome : Except Halt Unit} {n : Nat}
    (h : Exec.rounds n m = Finishes.result y outcome) (hn : n ≤ m.patience * Exec.stretch) :
    m.run = (outcome, y) := by
  obtain ⟨k, hk⟩ := Nat.exists_eq_add_of_le hn
  rw [Machine.run, Exec.stretches_eq, hk, Finishes.rounds_add h]
  cases outcome <;> rfl

/-- **What a run comes to** that leads to the end of the top level in time. -/
theorem Leads.run {m : Machine} {cost : Nat} {Q : Machine → Prop} {E : Halt → Machine → Prop}
    (h : Leads m cost Q E) (hend : ∀ m', Q m' → Exec.step m' = .ok false m')
    (hcost : cost < m.patience * Exec.stretch) :
    (∃ x, Finishes m (.ok ()) x ∧ m.run = (.ok (), x) ∧ Q x) ∨
      ∃ e y, Finishes m (.error e) y ∧ m.run = (.error e, y) ∧ E e y := by
  obtain ⟨n, x, hn, hpath, hend'⟩ := h
  have hin : n + 1 ≤ m.patience * Exec.stretch := Nat.lt_of_le_of_lt hn hcost
  have hrounds : Exec.rounds (n + 1) m = _ :=
    (Exec.rounds_of_path hpath 1).trans (Exec.rounds_succ 0 x)
  rcases hend' with hQ | ⟨e, y, -, hpoised, hstep, he⟩
  · rw [hend x hQ] at hrounds
    exact .inl ⟨x, .ends hpath (hend x hQ), m.run_of_rounds hrounds hin, hQ⟩
  · rw [hstep] at hrounds
    exact .inr ⟨e, y, .halts hpath hpoised hstep, m.run_of_rounds hrounds hin, he⟩

/-- **The machines that a run comes by.** -/
inductive Visits : Machine → Machine → Prop where
  | here (m : Machine) : Visits m m
  | next {m m₁ x : Machine} : Exec.step m = .ok true m₁ → Visits m₁ x → Visits m x

/-- What a run comes by later it comes by. -/
theorem Visits.trans {m y x : Machine} (h₁ : Visits m y) (h₂ : Visits y x) : Visits m x := by
  induction h₁ with
  | here => exact h₂
  | next hstep _ ih => exact .next hstep (ih h₂)

/-- Wherever a run comes by, an instruction is about to be executed, unless the
run is over. -/
theorem Leads.visits {m x : Machine} {cost : Nat} {Q : Machine → Prop} {E : Halt → Machine → Prop}
    (h : Leads m cost Q E) (hend : ∀ m', Q m' → Exec.step m' = .ok false m') (hx : Visits m x) :
    x.Poised ∨ Q x := by
  obtain ⟨n, m', -, hpath, hlast⟩ := h
  have hlast' : (m'.Poised ∨ Q m') ∧ ∀ m₁, Exec.step m' ≠ .ok true m₁ := by
    rcases hlast with hQ | ⟨e, m'', -, hpoised, hstep, -⟩
    · exact ⟨.inr hQ, fun m₁ h => by rw [hend m' hQ] at h; cases h⟩
    · exact ⟨.inl hpoised, fun m₁ h => by rw [hstep] at h; cases h⟩
  clear hlast
  induction hpath generalizing x with
  | refl m =>
    cases hx with
    | here => exact hlast'.1
    | next hstep _ => exact (hlast'.2 _ hstep).elim
  | step hpoised hstep _ ih =>
    cases hx with
    | here => exact .inl hpoised
    | next hstep' hx =>
      rw [hstep] at hstep'
      cases hstep'
      exact ih hx hlast'

end StackScript
