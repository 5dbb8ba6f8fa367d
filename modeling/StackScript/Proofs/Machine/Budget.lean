import StackScript.Proofs.Machine.Robustness

/-!
# Runs on a budget

A budget counts instructions as they are dispatched, and nothing else looks at
it: executing an instruction, returning at the end of a function's code and
refusing bytes that are no instruction are the same with any budget
(`Exec.Unpaid`). So a round on a budget is the round without one, until an
instruction is to be dispatched and the budget is spent
(`Exec.step_withBudget`).

A run that is counted comes to an end whatever it runs. Returns at the end of
code are not counted, but each of them takes away a frame, and an instruction
adds no more than one. The end is that of the run without a budget if that one
has dispatched no more instructions than were allowed; otherwise it is where
that run stands when it is about to dispatch one too many.
-/

namespace StackScript

open Exec (bind_of_ok bind_of_error)

/-- The machine with another budget. -/
def Machine.withBudget (m : Machine) (budget : Option Nat) : Machine := { m with budget }

namespace Machine

variable (m : Machine) (b : Option Nat)

@[simp] theorem frames_withBudget : (m.withBudget b).frames = m.frames := rfl

@[simp] theorem budget_withBudget : (m.withBudget b).budget = b := rfl

end Machine

namespace Exec

/-- A result whose machine has another budget. -/
def onBudget {α : Type} (b : Option Nat) :
    EStateM.Result Halt Machine α → EStateM.Result Halt Machine α
  | .ok a m => .ok a (m.withBudget b)
  | .error e m => .error e (m.withBudget b)

/-- What the rounds say of the machine, unless they halt: whether it is still
running. -/
def running? : EStateM.Result Halt Machine Bool → Option Bool
  | .ok running _ => some running
  | .error _ _ => none

/-- A round that is known to go on, or to end the run, is one that succeeds.
Runs on fixed programs are evaluated with this. -/
theorem eq_ok_of_running? {result : EStateM.Result Halt Machine Bool} {running : Bool}
    (h : running? result = some running) : result = .ok running (remains result) := by
  cases result with
  | ok running' m => cases h; rfl
  | error => cases h

/-- Whether a run goes on does not depend on how much it may still spend, once
the round has been paid for. -/
theorem running?_onBudget (b : Option Nat) (result : EStateM.Result Halt Machine Bool) :
    running? (onBudget b result) = running? result := by
  cases result <;> rfl

/-- **A computation that does not look at the budget**: with another budget it
does the same. -/
def Unpaid {α : Type} (x : Exec α) : Prop := ∀ m b, x (m.withBudget b) = onBudget b (x m)

namespace Unpaid

variable {α β : Type} {x : Exec α} {f : α → Exec β}

/-- A value is free. This and the lemmas that follow go through everything that
a machine can do in a round but the payment, to show that none of it looks at
the budget. -/
theorem pure (a : α) : Unpaid (Pure.pure a : Exec α) := fun _ _ => rfl

/-- A failure is free as well. -/
theorem fail (e : RuntimeError) : Unpaid (Exec.fail e : Exec α) := fun _ _ => rfl

/-- So is the result of an operation on values, whether it succeeds or fails. -/
theorem ofExcept (r : Except RuntimeError α) : Unpaid (Exec.ofExcept r) := by
  cases r with
  | ok a => exact pure a
  | error e => exact fail e

/-- A change to the machine is unpaid if it leaves the budget where it is. -/
theorem of_modify {u : Machine → Machine} (h : ∀ m b, u (m.withBudget b) = (u m).withBudget b) :
    Unpaid (modify u : Exec Unit) := fun m b => congrArg (EStateM.Result.ok ()) (h m b)

/-- Computations that do not look at the budget can be put one after the
other. -/
theorem bind (hx : Unpaid x) (hf : ∀ a, Unpaid (f a)) : Unpaid (x >>= f) := by
  intro m b
  have hx' := hx m b
  cases hres : x m with
  | ok a m' =>
    rw [hres] at hx'
    rw [bind_of_ok f hres, bind_of_ok f hx']
    exact hf a m' b
  | error e m' =>
    rw [hres] at hx'
    rw [bind_of_error f hres, bind_of_error f hx']
    rfl

/-- What is read off the machine may be anything but the budget. -/
theorem of_get {g : Machine → Exec α} (hread : ∀ m b, g (m.withBudget b) = g m)
    (h : ∀ m, Unpaid (g m)) : Unpaid (get >>= g) := by
  intro m b
  show g (m.withBudget b) (m.withBudget b) = onBudget b (g m m)
  rw [hread]
  exact h m m b

end Unpaid

/-! ## Instructions do not look at the budget -/

/-- Pushing a value checks the height of the stack, and nothing else. -/
theorem unpaid_push (v : Value) : Unpaid (push v) := by
  intro m b
  show (if m.sp < stackSize then _ else _) = onBudget b (if m.sp < stackSize then _ else _)
  split <;> rfl

/-- Popping a value does too. -/
theorem unpaid_pop : Unpaid pop := by
  intro m b
  show (if m.sp = 0 then _ else _) = onBudget b (if m.sp = 0 then _ else _)
  split <;> rfl

/-- The same for several values. -/
theorem unpaid_popMany (count : Nat) : Unpaid (popMany count) := by
  intro m b
  show (if m.sp < count then _ else _) = onBudget b (if m.sp < count then _ else _)
  split <;> rfl

/-- Discarding values from some height on. -/
theorem unpaid_discardFrom (i : Nat) : Unpaid (discardFrom i) := by
  intro m b
  show (if m.sp < i then _ else _) = onBudget b (if m.sp < i then _ else _)
  split <;> rfl

/-- An operator takes its operands and pushes its result. -/
theorem unpaid_binary (op : BinaryOp) : Unpaid (binary op) :=
  unpaid_pop.bind fun _ => unpaid_pop.bind fun _ => (Unpaid.ofExcept _).bind fun _ => unpaid_push _

/-- So does one with a single operand. -/
theorem unpaid_unary (op : UnaryOp) : Unpaid (unary op) :=
  unpaid_pop.bind fun _ => (Unpaid.ofExcept _).bind fun _ => unpaid_push _

/-- A constant is found in the pool, or the operand is invalid. -/
theorem unpaid_constant (op : Op) (index : Nat) : Unpaid (constant op index) := by
  refine Unpaid.of_get (fun _ _ => rfl) fun m => ?_
  split
  · exact .pure _
  · exact .fail _

/-- A variable is found in the frame, or the operand is invalid. -/
theorem unpaid_localSlot (frame : Frame) (op : Op) (index : Nat) :
    Unpaid (localSlot frame op index) := by
  refine Unpaid.of_get (fun _ _ => rfl) fun m => ?_
  split
  · exact .fail _
  · exact .pure _

/-- A closure is made from a routine and what it captures, and gets an identity
of its own. -/
theorem unpaid_pushClosure (body : Routine) (captured : List Value) :
    Unpaid (pushClosure body captured) :=
  Unpaid.bind (fun _ _ => rfl) fun _ => unpaid_push _

/-- A function is entered if its arguments are as many as its parameters and
there is room for its frame. Its instructions are paid for one by one, and so
its call is not. -/
theorem unpaid_enter (c : Closure) (base given : Nat) : Unpaid (enter c base given) := by
  intro m b
  show (if given ≠ c.body.params then _ else if maxFrames ≤ m.frames.length then _
    else if stackSize < base + c.body.locals then _ else _) =
    onBudget b (if given ≠ c.body.params then _ else if maxFrames ≤ m.frames.length then _
      else if stackSize < base + c.body.locals then _ else _)
  split
  · rfl
  split
  · rfl
  split <;> rfl

/-- A builtin function may write and it may fail, but it spends nothing. -/
theorem unpaid_callBuiltin (f : Builtin) (callee : Nat) : Unpaid (callBuiltin f callee) := by
  refine Unpaid.of_get (fun _ _ => rfl) fun m => (Unpaid.ofExcept _).bind fun result => ?_
  refine Unpaid.bind (.of_modify fun _ _ => rfl) fun _ => ?_
  exact (unpaid_discardFrom callee).bind fun _ => unpaid_push result

/-- Calling something is entering a function, running a builtin function, or a
failure, and all of these are free. -/
theorem unpaid_call (count : Nat) : Unpaid (call count) := by
  refine Unpaid.of_get (fun _ _ => rfl) fun m => ?_
  split
  · exact .fail _
  · dsimp only
    split
    · exact unpaid_enter _ _ _
    · exact unpaid_callBuiltin _ _
    · exact .fail _

/-- A return goes back to the caller, or ends the run. -/
theorem unpaid_returnWith (v : Value) : Unpaid (returnWith v) := by
  refine Unpaid.of_get (fun _ _ => rfl) fun m => ?_
  split
  · exact .fail _
  · exact .of_modify fun _ _ => rfl
  · refine Unpaid.bind (.of_modify fun _ _ => rfl) fun _ => ?_
    exact (unpaid_discardFrom _).bind fun _ => unpaid_push v

/-- A jump changes the place in the code, and that is all. -/
theorem unpaid_jumpTo (ip : Nat) : Unpaid (modify fun m : Machine => m.jumpTo ip : Exec Unit) := by
  refine .of_modify fun m b => ?_
  unfold Machine.jumpTo
  cases hframes : m.frames with
  | nil => simp [hframes]
  | cons frame callers => simp [hframes, Machine.withBudget]

/-- **Whatever an instruction does, it does with any budget.** -/
theorem unpaid_execute (frame : Frame) (i : Instruction) : Unpaid (execute frame i) := by
  cases i with
  | constant => exact (unpaid_constant _ _).bind fun _ => unpaid_push _
  | pop => exact unpaid_pop.bind fun _ => .of_modify fun _ _ => rfl
  | add | sub | mul | div | equal | notEqual | greaterThan => exact unpaid_binary _
  | pushTrue | pushFalse | pushNull | currentClosure => exact unpaid_push _
  | negate | bang => exact unpaid_unary _
  | jumpNotTruthy target =>
    refine unpaid_pop.bind fun v => ?_
    split
    · exact .pure _
    · exact unpaid_jumpTo _
  | jump target => exact unpaid_jumpTo _
  | getGlobal => exact Unpaid.of_get (fun _ _ => rfl) fun _ => unpaid_push _
  | setGlobal => exact unpaid_pop.bind fun _ => .of_modify fun _ _ => rfl
  | getLocal =>
    refine (unpaid_localSlot _ _ _).bind fun _ => ?_
    exact Unpaid.of_get (fun _ _ => rfl) fun _ => unpaid_push _
  | setLocal =>
    exact (unpaid_localSlot _ _ _).bind fun _ => unpaid_pop.bind fun _ => .of_modify fun _ _ => rfl
  | getBuiltin =>
    rw [execute]
    split
    · exact unpaid_push _
    · exact .fail _
  | getFree =>
    rw [execute]
    split
    · exact unpaid_push _
    · exact .fail _
  | makeArray => exact (unpaid_popMany _).bind fun _ => unpaid_push _
  | makeMap =>
    exact (unpaid_popMany _).bind fun _ => (Unpaid.ofExcept _).bind fun _ => unpaid_push _
  | index =>
    exact unpaid_pop.bind fun _ => unpaid_pop.bind fun _ =>
      (Unpaid.ofExcept _).bind fun _ => unpaid_push _
  | call => exact unpaid_call _
  | returnValue => exact unpaid_pop.bind fun _ => unpaid_returnWith _
  | returnNull => exact unpaid_returnWith _
  | makeClosure =>
    refine (unpaid_constant _ _).bind fun v => ?_
    split
    · exact (unpaid_popMany _).bind fun _ => unpaid_pushClosure _ _
    · exact .fail _

/-! ## Rounds on a budget -/

/-- Going past an instruction changes the frame alone. What it costs has been
paid before. -/
theorem unpaid_advance (frame : Frame) (callers : List Frame) (i : Instruction) :
    Unpaid (advance frame callers i) := .of_modify fun _ _ => rfl

/-- **A round is the same with any budget** that is not spent, but for the
instruction that is counted. A budget that is spent halts a round that would
dispatch an instruction, and no other. -/
theorem step_withBudget (m : Machine) :
    ∃ result, step (m.withBudget none) = onBudget none result ∧
      (m.Poised → (∀ n, step (m.withBudget (some (n + 1))) = onBudget (some n) result) ∧
        step (m.withBudget (some 0)) = .error (.error .budgetExhausted) (m.withBudget (some 0))) ∧
      (¬m.Poised → ∀ n, step (m.withBudget (some n)) = onBudget (some n) result) := by
  cases hframes : m.frames with
  | nil =>
    have hend : ∀ b, step (m.withBudget b) = onBudget b (.ok false m) :=
      fun b => step_of_no_frames hframes
    refine ⟨_, hend none, ?_, fun _ n => hend (some n)⟩
    rintro ⟨frame, callers, -, hcons, -⟩
    simp [hframes] at hcons
  | cons frame callers =>
    have hstep : ∀ b, step (m.withBudget b) = _ := fun b =>
      step_of_frames (show (m.withBudget b).frames = frame :: callers from hframes)
    cases hdecode : frame.closure.body.code.decodeAt frame.ip with
    | some decoded =>
      cases decoded with
      | ok i =>
        have hpoised : m.Poised := ⟨frame, callers, i, hframes, hdecode⟩
        -- Once it is paid for, the round does not look at the budget again.
        have hround : Unpaid (do advance frame callers i; execute frame i; Pure.pure true) :=
          (unpaid_advance frame callers i).bind fun _ =>
            (unpaid_execute frame i).bind fun _ => .pure true
        simp only [hdecode] at hstep
        refine ⟨(do advance frame callers i; execute frame i; Pure.pure true) m, ?_,
          fun _ => ⟨fun n => ?_, ?_⟩, fun h => (h hpoised).elim⟩
        · rw [hstep none, bind_of_ok _ (show spend (m.withBudget none) = .ok () _ from rfl)]
          exact hround m none
        · rw [hstep (some (n + 1)),
            bind_of_ok _ (show spend _ = .ok () (m.withBudget (some n)) from rfl)]
          exact hround m (some n)
        · rw [hstep (some 0)]
          exact bind_of_error _ rfl
      | error cause =>
        simp only [hdecode] at hstep
        refine ⟨.error (.error (.invalidCode cause)) m, hstep none, ?_, fun _ n => hstep (some n)⟩
        rintro ⟨frame', callers', i, hcons, hsome⟩
        cases hframes.symm.trans hcons
        simp [hdecode] at hsome
    | none =>
      simp only [hdecode] at hstep
      have hround : Unpaid (if callers.isEmpty then Pure.pure false else do
          returnWith .null
          Pure.pure true) := by
        split
        · exact .pure false
        · exact (unpaid_returnWith .null).bind fun _ => .pure true
      refine ⟨_, (hstep none).trans (hround m none), ?_,
        fun _ n => (hstep _).trans (hround m (some n))⟩
      rintro ⟨frame', callers', i, hcons, hsome⟩
      cases hframes.symm.trans hcons
      simp [hdecode] at hsome

end Exec

/-! ## Counting -/

namespace Machine

/-- The instruction that the machine is about to execute. -/
def next? (m : Machine) : Option Instruction :=
  match m.frames with
  | [] => none
  | frame :: _ =>
    match frame.closure.body.code.decodeAt frame.ip with
    | some (.ok i) => some i
    | _ => none

/-- Whether a machine is about to execute an instruction can be decided, by
reading the code at its place. -/
theorem poised_iff {m : Machine} : m.Poised ↔ m.next?.isSome = true := by
  unfold next?
  constructor
  · rintro ⟨frame, callers, i, hframes, hdecode⟩
    simp [hframes, hdecode]
  · intro h
    split at h
    · cases h
    · next frame callers hframes =>
      split at h
      · next i hdecode => exact ⟨frame, callers, i, hframes, hdecode⟩
      · cases h

/-- **Whether the next round dispatches an instruction**: there is one, and the
budget allows it. -/
def dispatches (m : Machine) : Bool := m.next?.isSome && m.budget != some 0

/-- **The number of instructions dispatched** in so many rounds. -/
def dispatched : (rounds : Nat) → Machine → Nat
  | 0, _ => 0
  | rounds + 1, m =>
    (if m.dispatches then 1 else 0) +
      match Exec.step m with
      | .ok true m' => dispatched rounds m'
      | _ => 0

/-- **The run of a machine ends**, having dispatched so many instructions. -/
def EndsAfter (m : Machine) (count : Nat) (outcome : Except Halt Unit) (y : Machine) : Prop :=
  ∃ rounds, Exec.rounds rounds m = Finishes.result y outcome ∧ m.dispatched rounds = count

/-- **A run is about to dispatch an instruction**, having dispatched so many
before. -/
def PausesAfter (m : Machine) (count : Nat) (x : Machine) : Prop :=
  ∃ rounds, Exec.rounds rounds m = .ok true x ∧ m.dispatched rounds = count ∧ x.Poised

variable {m m' y : Machine} {r : Nat}

/-- Without a budget a machine that is poised does execute its instruction. -/
theorem dispatches_of_poised (h : m.Poised) : (m.withBudget none).dispatches = true := by
  rw [dispatches, Bool.and_eq_true]
  exact ⟨poised_iff.1 h, rfl⟩

/-- A machine that is not poised has nothing to pay for, with a budget or
without. -/
theorem dispatches_of_not_poised (h : ¬m.Poised) (b : Option Nat) :
    (m.withBudget b).dispatches = false := by
  have hnext : m.next?.isSome = false := Bool.eq_false_iff.2 fun hsome => h (poised_iff.2 hsome)
  show (m.next?.isSome && _) = false
  rw [hnext, Bool.false_and]

/-- The instructions of a run are counted round by round, as long as it goes
on. -/
theorem dispatched_of_running (h : Exec.step m = .ok true m') :
    m.dispatched (r + 1) = (if m.dispatches then 1 else 0) + m'.dispatched r := by
  rw [dispatched, h]

/-- The last round counts if there was an instruction to execute in it. A round
in which a function ends without one does not. -/
theorem dispatched_of_stopped (h : Exec.running? (Exec.step m) ≠ some true) :
    m.dispatched (r + 1) = if m.dispatches then 1 else 0 := by
  rw [dispatched]
  cases hstep : Exec.step m with
  | ok running m' =>
    cases running with
    | true => exact (h (hstep ▸ rfl)).elim
    | false => exact Nat.add_zero _
  | error => exact Nat.add_zero _

/-- Nothing is dispatched once a run has ended. -/
theorem dispatched_add {outcome : Except Halt Unit}
    (h : Exec.rounds r m = Finishes.result y outcome) (k : Nat) :
    m.dispatched (r + k) = m.dispatched r := by
  induction r generalizing m with
  | zero => cases outcome <;> cases h
  | succ r ih =>
    rw [Nat.add_right_comm]
    by_cases hrunning : Exec.running? (Exec.step m) = some true
    · have hstep := Exec.eq_ok_of_running? hrunning
      rw [Exec.rounds_succ, hstep] at h
      rw [dispatched_of_running hstep, dispatched_of_running hstep, ih h]
    · rw [dispatched_of_stopped hrunning, dispatched_of_stopped hrunning]

/-- What is dispatched by a run that goes on adds up. -/
theorem dispatched_append (h : Exec.rounds r m = .ok true m') (k : Nat) :
    m.dispatched (r + k) = m.dispatched r + m'.dispatched k := by
  induction r generalizing m with
  | zero =>
    cases h
    rw [Nat.zero_add, dispatched, Nat.zero_add]
  | succ r ih =>
    rw [Exec.rounds_succ] at h
    split at h
    · next m₁ hstep =>
      rw [Nat.add_right_comm, dispatched_of_running hstep, dispatched_of_running hstep, ih h,
        Nat.add_assoc]
    · cases h
    · cases h

/-- **A run ends in one way only**, and after one number of instructions. -/
theorem EndsAfter.unique {count count' : Nat} {outcome outcome' : Except Halt Unit} {y' : Machine}
    (h : m.EndsAfter count outcome y) (h' : m.EndsAfter count' outcome' y') :
    count = count' ∧ outcome = outcome' ∧ y = y' := by
  obtain ⟨r, hr, hcount⟩ := h
  obtain ⟨k, hk, hcount'⟩ := h'
  have heq := (Finishes.rounds_add hr k).symm.trans (Nat.add_comm r k ▸ Finishes.rounds_add hk r)
  refine ⟨?_, ?_⟩
  · rw [← hcount, ← hcount', ← dispatched_add hr k, ← dispatched_add hk r, Nat.add_comm]
  · cases outcome <;> cases outcome' <;> cases heq <;> exact ⟨rfl, rfl⟩

end Machine

/-- What a round on a budget counts, if the budget suffices: the rest of the
budget is left. -/
theorem Exec.step_of_budget {m : Machine} {n : Nat}
    (h : (if (m.withBudget none).dispatches then 1 else 0) ≤ n) :
    ∃ result left, n = (if (m.withBudget none).dispatches then 1 else 0) + left ∧
      (m.withBudget (some n)).dispatches = (m.withBudget none).dispatches ∧
      step (m.withBudget none) = onBudget none result ∧
      step (m.withBudget (some n)) = onBudget (some left) result := by
  obtain ⟨result, hfree, hpoised, hother⟩ := step_withBudget m
  by_cases hm : m.Poised
  · rw [Machine.dispatches_of_poised hm] at h ⊢
    obtain ⟨left, rfl⟩ := Nat.exists_eq_add_of_le h
    refine ⟨result, left, rfl, ?_, hfree, ?_⟩
    · rw [Machine.dispatches, Bool.and_eq_true]
      refine ⟨Machine.poised_iff.1 hm, ?_⟩
      simp
    · rw [if_pos rfl, Nat.add_comm]
      exact (hpoised hm).1 left
  · refine ⟨result, n, ?_, ?_, hfree, hother hm n⟩
    · rw [Machine.dispatches_of_not_poised hm]
      exact (Nat.zero_add n).symm
    · rw [Machine.dispatches_of_not_poised hm, Machine.dispatches_of_not_poised hm]

/-- **Rounds on a budget that suffices** are the rounds without one, and what is
left of the budget is what they have not dispatched. -/
theorem Exec.rounds_withBudget (r : Nat) {m : Machine} {n : Nat}
    (h : (m.withBudget none).dispatched r ≤ n) :
    rounds r (m.withBudget (some n)) =
        onBudget (some (n - (m.withBudget none).dispatched r)) (rounds r (m.withBudget none)) ∧
      (m.withBudget (some n)).dispatched r = (m.withBudget none).dispatched r := by
  induction r generalizing m n with
  | zero => exact ⟨rfl, rfl⟩
  | succ r ih =>
    obtain ⟨result, left, hn, hcounts, hfree, hlimited⟩ :=
      step_of_budget (Nat.le_trans (Nat.le_add_right _ _) h)
    by_cases hrunning : running? result = some true
    · obtain ⟨m', rfl⟩ : ∃ m', result = .ok true m' := ⟨_, eq_ok_of_running? hrunning⟩
      have hcount := Machine.dispatched_of_running (r := r) hfree
      have hcount' := Machine.dispatched_of_running (r := r) hlimited
      -- What this round has not spent is enough for the others.
      have hleft : (m'.withBudget none).dispatched r ≤ left := by omega
      obtain ⟨hrounds, hrest⟩ := ih hleft
      rw [rounds_succ, rounds_succ, hfree, hlimited]
      refine ⟨?_, by rw [hcount, hcount', hrest, hcounts]⟩
      rw [show n - (m.withBudget none).dispatched (r + 1) =
        left - (m'.withBudget none).dispatched r by omega]
      exact hrounds
    · have hcount := Machine.dispatched_of_stopped (r := r)
        (hfree ▸ running?_onBudget none result ▸ hrunning)
      have hcount' := Machine.dispatched_of_stopped (r := r)
        (hlimited ▸ running?_onBudget (some left) result ▸ hrunning)
      rw [rounds_succ, rounds_succ, hfree, hlimited]
      refine ⟨?_, by rw [hcount, hcount', hcounts]⟩
      rw [show n - (m.withBudget none).dispatched (r + 1) = left by omega]
      cases result with
      | ok running m' =>
        cases running with
        | true => exact (hrunning rfl).elim
        | false => rfl
      | error => rfl

/-! ## A run on a budget comes to an end -/

/-- Nothing is asked of the bodies of functions. -/
theorem Value.bodies_any (v : Value) : v.Bodies fun _ => True := by
  match v with
  | .number n => exact .number n
  | .boolean b => exact .boolean b
  | .string s => exact .string s
  | .null => exact .null
  | .builtin b => exact .builtin b
  | .array items => exact .array fun v _ => bodies_any v
  | .map entries =>
    refine .map fun x hx => ?_
    have hsize : sizeOf x.2 < sizeOf entries := by
      have := List.sizeOf_lt_of_mem hx
      obtain ⟨key, value⟩ := x
      simp only [Prod.mk.sizeOf_spec] at this ⊢
      omega
    exact bodies_any x.2
  | .routine _ => exact .routine trivial
  | .closure .. => exact .closure trivial fun v _ => bodies_any v

namespace Machine

variable {m m' : Machine}

/-- Every machine is somewhere. The lemmas about the effect of a round can be
used with nothing known about the routines. -/
theorem at_any (m : Machine) : m.At (fun _ => True) m.frames m.sp :=
  ⟨rfl, rfl, fun v _ => v.bodies_any, fun v _ => v.bodies_any, fun v _ => v.bodies_any⟩

/-- An instruction adds no more than one frame. -/
theorem length_frames_step (h : Exec.step m = .ok true m') :
    m'.frames.length ≤ m.frames.length + 1 := by
  cases hframes : m.frames with
  | nil =>
    rw [Exec.step_of_no_frames hframes] at h
    cases h
  | cons frame callers =>
    have hm := m.at_any
    rw [hframes] at hm
    rw [List.length_cons]
    rcases hm.step (Value.bodies_any _) _ _ h with rfl | ⟨-, hm'⟩ | ⟨i, -, hm'⟩
    · rw [hframes, List.length_cons]
      omega
    · rw [hm'.frames]
      omega
    · cases hm' with
      | next _ _ hm' | jump _ _ hm' | enter _ _ _ hm' | back _ _ hm' | ended _ hm' =>
        simp only [hm'.frames, List.length_cons, List.length_nil]
        omega

/-- A round that dispatches nothing and goes on takes a frame away. -/
theorem length_frames_return (hm : ¬m.Poised) (h : Exec.step m = .ok true m') :
    m'.frames.length + 1 ≤ m.frames.length := by
  cases hframes : m.frames with
  | nil =>
    rw [Exec.step_of_no_frames hframes] at h
    cases h
  | cons frame callers =>
    have hat := m.at_any
    rw [hframes] at hat
    rw [Exec.step_of_frames hframes] at h
    cases hdecode : frame.closure.body.code.decodeAt frame.ip with
    | none =>
      rw [hdecode] at h
      cases callers with
      | nil => cases h
      | cons caller callers =>
        have hreturn : Exec.Yields (do Exec.returnWith .null; pure true) m fun _ m' =>
            m'.At (fun _ => True) (caller :: callers) (frame.base - 1 + 1) :=
          (hat.returnWith .null).bind fun _ m₁ hm₁ => .of_eq_ok rfl hm₁
        rw [(hreturn _ _ h).frames]
        rfl
    | some decoded =>
      rw [hdecode] at h
      cases decoded with
      | error cause => cases h
      | ok i => exact (hm ⟨frame, callers, i, hframes, hdecode⟩).elim

/-- **A round ends the run, or a spent budget keeps it from being made, or it
goes on** with a machine that has less before it: a dispatch adds at most one
frame, and every other round takes one away. -/
theorem round_cases (m : Machine) (n : Nat) :
    (∃ outcome y, Exec.rounds 1 (m.withBudget none) = Finishes.result y outcome ∧
        (m.withBudget none).dispatched 1 ≤ n) ∨
      n = 0 ∧ m.Poised ∨
      ∃ (m' : Machine) (left : Nat),
        Exec.step (m.withBudget none) = .ok true (m'.withBudget none) ∧
        n = (if (m.withBudget none).dispatches then 1 else 0) + left ∧
        2 * left + m'.frames.length < 2 * n + m.frames.length := by
  by_cases hspent : n = 0 ∧ m.Poised
  · exact .inr (.inl hspent)
  · have hallowed : (if (m.withBudget none).dispatches then 1 else 0) ≤ n := by
      by_cases hm : m.Poised
      · have hn : n ≠ 0 := fun hn => hspent ⟨hn, hm⟩
        split <;> omega
      · rw [dispatches_of_not_poised hm]
        exact Nat.zero_le n
    obtain ⟨result, left, hn, -, hfree, -⟩ := Exec.step_of_budget hallowed
    by_cases hrunning : Exec.running? result = some true
    · obtain ⟨m', rfl⟩ : ∃ m', result = .ok true m' := ⟨_, Exec.eq_ok_of_running? hrunning⟩
      refine .inr (.inr ⟨m', left, hfree, hn, ?_⟩)
      have hadds : m'.frames.length ≤ m.frames.length + 1 :=
        (length_frames_step hfree :)
      by_cases hm : m.Poised
      · rw [if_pos (dispatches_of_poised hm)] at hn
        omega
      · -- A round without an instruction leaves a frame, which the measure
        -- counts.
        have hreturns : m'.frames.length + 1 ≤ m.frames.length :=
          (length_frames_return (m := m.withBudget none) hm hfree :)
        omega
    · have hcount := dispatched_of_stopped (r := 0)
        (hfree ▸ Exec.running?_onBudget none result ▸ hrunning)
      rw [Exec.rounds_succ, hfree]
      cases result with
      | ok running y =>
        cases running with
        | true => exact (hrunning rfl).elim
        | false => exact .inl ⟨.ok (), _, rfl, hcount ▸ hallowed⟩
      | error e y => exact .inl ⟨.error e, _, rfl, hcount ▸ hallowed⟩

/-- **A run ends, or it comes to be about to dispatch one instruction too
many**, and the rounds that this takes are bounded. -/
theorem ends_or_pauses {bound n : Nat} (h : 2 * n + m.frames.length ≤ bound) :
    ∃ r ≤ bound,
      (∃ outcome y, Exec.rounds (r + 1) (m.withBudget none) = Finishes.result y outcome ∧
        (m.withBudget none).dispatched (r + 1) ≤ n) ∨
      ∃ x : Machine, Exec.rounds r (m.withBudget none) = .ok true x ∧
        (m.withBudget none).dispatched r = n ∧ x.Poised := by
  induction bound generalizing m n with
  | zero =>
    rcases round_cases m n with hends | ⟨rfl, hm⟩ | ⟨_, _, _, _, hless⟩
    · exact ⟨0, Nat.le_refl 0, .inl hends⟩
    · exact ⟨0, Nat.le_refl 0, .inr ⟨_, rfl, rfl, hm⟩⟩
    · omega
  | succ bound ih =>
    rcases round_cases m n with hends | ⟨rfl, hm⟩ | ⟨m', left, hstep, hn, hless⟩
    · exact ⟨0, Nat.zero_le _, .inl hends⟩
    · exact ⟨0, Nat.zero_le _, .inr ⟨_, rfl, rfl, hm⟩⟩
    · obtain ⟨r, hr, hrest⟩ := ih (m := m') (n := left) (by omega)
      refine ⟨r + 1, Nat.succ_le_succ hr, ?_⟩
      have hcount := dispatched_of_running (r := r) hstep
      have hcount' := dispatched_of_running (r := r + 1) hstep
      rcases hrest with ⟨outcome, y, hends, hle⟩ | ⟨x, hpauses, heq, hx⟩
      · refine .inl ⟨outcome, y, ?_, by omega⟩
        rw [Exec.rounds_succ, hstep]
        exact hends
      · refine .inr ⟨x, ?_, by omega, hx⟩
        rw [Exec.rounds_succ, hstep]
        exact hpauses

/-! ## The run on a budget and the run without -/

section

variable {n count : Nat} {outcome : Except Halt Unit} {x y : Machine}

/-- **A run that ends in time without a budget** ends so with one. -/
theorem rounds_of_end (h : Exec.rounds r (m.withBudget none) = Finishes.result y outcome)
    (hn : (m.withBudget none).dispatched r ≤ n) :
    Exec.rounds r (m.withBudget (some n)) =
        Finishes.result (y.withBudget (some (n - (m.withBudget none).dispatched r))) outcome ∧
      (m.withBudget (some n)).dispatched r = (m.withBudget none).dispatched r := by
  obtain ⟨hrounds, hcount⟩ := Exec.rounds_withBudget r hn
  refine ⟨hrounds.trans ?_, hcount⟩
  rw [h]
  cases outcome <;> rfl

/-- **A run that goes on for too long without a budget** is cut short by one,
where it is about to dispatch an instruction. -/
theorem rounds_of_pause (h : Exec.rounds r (m.withBudget none) = .ok true x) (hx : x.Poised)
    (hn : (m.withBudget none).dispatched r = n) :
    Exec.rounds (r + 1) (m.withBudget (some n)) =
        Finishes.result (x.withBudget (some 0)) (.error (.error .budgetExhausted)) ∧
      (m.withBudget (some n)).dispatched (r + 1) = n := by
  obtain ⟨hrounds, hcount⟩ := Exec.rounds_withBudget r (Nat.le_of_eq hn)
  rw [hn, Nat.sub_self, h] at hrounds
  have hrunning : Exec.rounds r (m.withBudget (some n)) = .ok true (x.withBudget (some 0)) :=
    hrounds
  obtain ⟨_, -, hpoised, -⟩ := Exec.step_withBudget x
  have hstep := (hpoised hx).2
  constructor
  · rw [Exec.rounds_add, hrunning]
    show Exec.rounds 1 (x.withBudget (some 0)) = _
    rw [Exec.rounds_succ, hstep]
    rfl
  · have hnone : (x.withBudget (some 0)).dispatched 1 = 0 := by
      rw [dispatched_of_stopped (by simp [hstep, Exec.running?])]
      simp [dispatches, withBudget]
    rw [dispatched_append hrunning, hcount, hn, hnone, Nat.add_zero]

/-- **A run on a budget ends**, after so many rounds at most, and never
dispatches more than its budget. -/
theorem exists_end (m : Machine) (n : Nat) :
    ∃ r ≤ 2 * n + m.frames.length + 1, ∃ outcome y,
      Exec.rounds r (m.withBudget (some n)) = Finishes.result y outcome ∧
        (m.withBudget (some n)).dispatched r ≤ n := by
  obtain ⟨r, hr, ⟨outcome, y, hends, hle⟩ | ⟨x, hpauses, hn, hx⟩⟩ :=
    ends_or_pauses (m := m) (n := n) (Nat.le_refl _)
  · obtain ⟨hrounds, hcount⟩ := rounds_of_end hends hle
    exact ⟨r + 1, Nat.succ_le_succ hr, _, _, hrounds, hcount ▸ hle⟩
  · obtain ⟨hrounds, hcount⟩ := rounds_of_pause hpauses hx hn
    exact ⟨r + 1, Nat.succ_le_succ hr, _, _, hrounds, Nat.le_of_eq hcount⟩

/-- **How a run on a budget ends** is what the machine's run comes to. -/
theorem run_of_endsAfter (hm : m.frames.length ≤ maxFrames)
    (h : (m.withBudget (some n)).EndsAfter count outcome y) :
    (m.withBudget (some n)).run = (outcome, y) := by
  obtain ⟨r, hr, outcome', y', hrounds, -⟩ := exists_end m n
  obtain ⟨-, rfl, rfl⟩ := h.unique ⟨r, hrounds, rfl⟩
  refine run_of_rounds hrounds (Nat.le_trans hr ?_)
  have hpatience : n + 1 ≤ (m.withBudget (some n)).patience :=
    Nat.add_le_add_right (Nat.le_add_left ..) 1
  calc 2 * n + m.frames.length + 1
      ≤ 2 * n + maxFrames + 1 := by omega
    _ ≤ (n + 1) * Exec.stretch := by simp only [maxFrames, Exec.stretch]; omega
    _ ≤ _ := Nat.mul_le_mul_right _ hpatience

/-- Without a budget, a run ends in the way that the machine's run says, unless
it is given up. -/
theorem endsAfter_of_run (h : m.run = (outcome, y)) (hended : outcome ≠ .error .unfinished) :
    ∃ count, m.EndsAfter count outcome y := by
  refine ⟨_, m.patience * Exec.stretch, ?_, rfl⟩
  rw [← Exec.stretches_eq]
  unfold run at h
  split at h
  · next heq => cases h; exact heq
  · cases h; exact (hended rfl).elim
  · next heq => cases h; exact heq

/-- **A run without a budget pauses** before any instruction that it dispatches,
and before that many instructions if it never ends. -/
theorem exists_pause
    (h : ∀ count outcome y, (m.withBudget none).EndsAfter count outcome y → n < count) :
    ∃ x, (m.withBudget none).PausesAfter n x := by
  obtain ⟨r, -, ⟨outcome, y, hends, hle⟩ | ⟨x, hpauses, hn, hx⟩⟩ :=
    ends_or_pauses (m := m) (n := n) (Nat.le_refl _)
  · exact (Nat.not_lt.2 hle (h _ _ _ ⟨r + 1, hends, rfl⟩)).elim
  · exact ⟨x, r, hpauses, hn, hx⟩

end

/-- **The budget only cuts a run short.** A run on a budget of `n` instructions
ends, and dispatches no more than `n` of them. If the run without a budget ends
having dispatched no more than that, then the run on the budget ends in the same
way and leaves the same machine, with what is left of the budget. If it
dispatches more, or never ends, then the run on the budget reports that the
budget is exhausted, and leaves the machine of the run without a budget where
that one is about to dispatch the instruction after the first `n`. -/
theorem budget_only_cuts_short {m : Machine} (hm : m.Reachable) (n : Nat) :
    let free := m.withBudget none
    let limited := m.withBudget (some n)
    (∃ count outcome y, limited.EndsAfter count outcome y ∧ count ≤ n ∧
        limited.run = (outcome, y)) ∧
      (∀ count outcome y, free.EndsAfter count outcome y → count ≤ n →
        limited.run = (outcome, y.withBudget (some (n - count)))) ∧
      ((∃ count outcome y, free.EndsAfter count outcome y ∧ n < count) ∨
          (∀ count outcome y, ¬free.EndsAfter count outcome y) →
        (∃ x, free.PausesAfter n x) ∧ ∀ x, free.PausesAfter n x →
          limited.run = (.error (.error .budgetExhausted), x.withBudget (some 0))) ∧
      ∀ outcome y, free.run = (outcome, y) → outcome ≠ .error .unfinished →
        ∃ count, free.EndsAfter count outcome y := by
  intro free limited
  have hdepth := hm.fit.depth
  refine ⟨?_, ?_, fun hlong => ⟨?_, ?_⟩, fun outcome y => endsAfter_of_run⟩
  · obtain ⟨r, -, outcome, y, hends, hcount⟩ := exists_end m n
    have hlimited : limited.EndsAfter (limited.dispatched r) outcome y := ⟨r, hends, rfl⟩
    exact ⟨_, outcome, y, hlimited, hcount, run_of_endsAfter hdepth hlimited⟩
  · rintro _ outcome y ⟨r, hends, rfl⟩ hcount
    obtain ⟨hrounds, heq⟩ := rounds_of_end hends hcount
    exact run_of_endsAfter hdepth ⟨r, hrounds, heq⟩
  · refine exists_pause fun count outcome y hends => ?_
    rcases hlong with ⟨count', _, _, hends', hlt⟩ | hnever
    · exact (hends.unique hends').1 ▸ hlt
    · exact (hnever _ _ _ hends).elim
  · rintro x ⟨r, hrounds, hcount, hx⟩
    obtain ⟨hends, heq⟩ := rounds_of_pause hrounds hx hcount
    exact run_of_endsAfter hdepth ⟨r + 1, hends, heq⟩

/-- The function has no code at all, so the round that leaves it costs nothing.
A budget for two instructions is spent after that round and not before it. -/
theorem budget_only_cuts_short_at_return :
    let code : Code := (Instruction.encodeAll [.constant 0, .call 0, .pushTrue]).toArray
    let m := load ⟨code, #[.closure 1 ⟨0, #[], 0, 0⟩ []]⟩ .empty none 2 default
    m.Reachable ∧ (∃ y, m.EndsAfter 3 (.ok ()) y) ∧
      ∃ x, m.PausesAfter 2 x ∧ x.frames.length = 1 ∧
        (m.withBudget (some 2)).run =
          (.error (.error .budgetExhausted), x.withBudget (some 0)) := by
  intro code m
  have hm : m.Reachable := .load ..
  have hends : m.EndsAfter 3 (.ok ()) (Exec.remains (Exec.rounds 5 m)) :=
    ⟨5, Exec.eq_ok_of_running? (by decide +kernel), by decide +kernel⟩
  have hpauses : m.PausesAfter 2 (Exec.remains (Exec.rounds 3 m)) :=
    ⟨3, Exec.eq_ok_of_running? (by decide +kernel), by decide +kernel,
      poised_iff.2 (by decide +kernel)⟩
  obtain ⟨-, -, hlong, -⟩ := budget_only_cuts_short hm 2
  refine ⟨hm, ⟨_, hends⟩, _, hpauses, by decide +kernel, ?_⟩
  exact (hlong (.inl ⟨3, _, _, hends, by decide⟩)).2 _ hpauses

end Machine

end StackScript
