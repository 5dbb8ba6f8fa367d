import StackScript.Proofs.Code.Operands
import StackScript.Proofs.Machine.Depth

/-!
# What a run does to the globals

Of all instructions only one sets globals, and it does so as the last thing it
does: a round that halts has set none (`Exec.globals_step`). So the globals of a
run are confined to the slots that the code it runs can name, as long as all
functions that are ever called come from where the run began. That they do is
true of every machine: it builds closures, but no routines
(`Machine.Runs.step`).

Main statement: a run of steady code that sets only globals below a bound leaves
no more slots than that, however it ends (`Finishes.size_globals_le`).
-/

namespace StackScript

open Instruction (encodeAll sizeAll)

namespace Exec

variable {α β : Type}

/-- The machine that a computation leaves behind, whether it halts or not. -/
def remains : EStateM.Result Halt Machine α → Machine
  | .ok _ m => m
  | .error _ m => m

/-- **A computation that keeps a condition** of machines, whether it halts or
not. -/
def Keeps (I : Machine → Prop) (x : Exec α) : Prop := ∀ m, I m → I (remains (x m))

namespace Keeps

variable {I : Machine → Prop} {x : Exec α} {f : α → Exec β}

/-- A value changes nothing. With the lemmas that follow, conditions are taken
through computations part by part. -/
theorem pure (a : α) : Keeps I (Pure.pure a : Exec α) := fun _ h => h

/-- A failure changes nothing either: the machine stays as it is. -/
theorem fail (e : RuntimeError) : Keeps I (Exec.fail e : Exec α) := fun _ h => h

/-- Nor does the result of an operation on values. -/
theorem ofExcept (r : Except RuntimeError α) : Keeps I (Exec.ofExcept r) := by
  cases r with
  | ok a => exact pure a
  | error e => exact fail e

/-- Nor does looking at the machine. -/
theorem get : Keeps I (MonadState.get : Exec Machine) := fun _ h => h

/-- A change keeps a condition if it does so for every machine. -/
theorem of_modify {g : Machine → Machine} (h : ∀ m, I m → I (g m)) :
    Keeps I (modify g : Exec Unit) := h

/-- Computations that keep a condition can be put one after the other, and if
the first one halts there is no second. -/
theorem bind (hx : Keeps I x) (hf : ∀ a, Keeps I (f a)) : Keeps I (x >>= f) := by
  intro m hm
  have hafter := hx m hm
  cases hres : x m with
  | ok a m' =>
    rw [hres] at hafter
    rw [Exec.bind_of_ok f hres]
    exact hf a m' hafter
  | error e m' =>
    rw [hres] at hafter
    rw [Exec.bind_of_error f hres]
    exact hafter

end Keeps

/-! ## Instructions and globals -/

/-- **A computation that leaves the globals alone**: it keeps all that is true
of them. -/
abbrev Spares (x : Exec α) : Prop := ∀ I : Globals → Prop, Keeps (fun m => I m.globals) x

/-- Pushing a value is about the stack. The lemmas that follow go through
everything that machines do besides setting globals. -/
theorem spares_push (v : Value) : Spares (push v) := by
  intro I m hm
  unfold push
  split <;> exact hm

/-- So is popping one. -/
theorem spares_pop : Spares pop := by
  intro I m hm
  unfold pop
  split <;> exact hm

/-- So is popping several. -/
theorem spares_popMany (count : Nat) : Spares (popMany count) := by
  intro I m hm
  unfold popMany
  split <;> exact hm

/-- So is discarding values from some height on. -/
theorem spares_discardFrom (i : Nat) : Spares (discardFrom i) := by
  intro I m hm
  unfold discardFrom
  split <;> exact hm

/-- An operator takes its operands from the stack and pushes its result. -/
theorem spares_binary (op : BinaryOp) : Spares (binary op) := fun I =>
  (spares_pop I).bind fun _ => (spares_pop I).bind fun _ =>
    (Keeps.ofExcept _).bind fun _ => spares_push _ I

/-- So does one with a single operand. -/
theorem spares_unary (op : UnaryOp) : Spares (unary op) := fun I =>
  (spares_pop I).bind fun _ => (Keeps.ofExcept _).bind fun _ => spares_push _ I

/-- Entering a function is about frames and the stack. -/
theorem spares_enter (c : Closure) (base given : Nat) : Spares (enter c base given) := by
  intro I m hm
  unfold enter
  split
  · exact hm
  split
  · exact hm
  split <;> exact hm

/-- Builtin functions know nothing of globals. -/
theorem spares_callBuiltin (b : Builtin) (callee : Nat) : Spares (callBuiltin b callee) := by
  intro I
  refine Keeps.get.bind fun m => (Keeps.ofExcept _).bind fun result => ?_
  refine Keeps.bind (.of_modify fun _ h => h) fun _ => ?_
  exact (spares_discardFrom callee I).bind fun _ => spares_push result I

/-- So a call sets none, before the function that is called runs. -/
theorem spares_call (count : Nat) : Spares (call count) := by
  intro I
  refine Keeps.get.bind fun m => ?_
  split
  · exact .fail _
  · dsimp only
    split
    · exact spares_enter _ _ _ I
    · exact spares_callBuiltin _ _ I
    · exact .fail _

/-- Nor does a return. -/
theorem spares_returnWith (v : Value) : Spares (returnWith v) := by
  intro I
  refine Keeps.get.bind fun m => ?_
  split
  · exact .fail _
  · exact .of_modify fun _ h => h
  · refine Keeps.bind (.of_modify fun _ h => h) fun _ => ?_
    exact (spares_discardFrom _ I).bind fun _ => spares_push v I

/-- The variables of frames are not among the globals. -/
theorem spares_localSlot (frame : Frame) (op : Op) (index : Nat) :
    Spares (localSlot frame op index) := by
  intro I
  refine Keeps.get.bind fun m => ?_
  split
  · exact .fail _
  · exact .pure _

/-- Constants are read. -/
theorem spares_constant (op : Op) (index : Nat) : Spares (constant op index) := by
  intro I
  refine Keeps.get.bind fun m => ?_
  split
  · exact .pure _
  · exact .fail _

/-- A jump changes the place in the code. -/
theorem globals_jumpTo (m : Machine) (ip : Nat) : (m.jumpTo ip).globals = m.globals := by
  unfold Machine.jumpTo
  split <;> rfl

/-- So jumps leave the globals alone. -/
theorem spares_jumpTo (ip : Nat) : Spares (modify fun m : Machine => m.jumpTo ip : Exec Unit) :=
  fun _ => .of_modify fun m h => (globals_jumpTo m ip).symm ▸ h

/-- **Only one instruction sets globals**, and only one global. -/
theorem keeps_execute {I : Globals → Prop} (frame : Frame) {i : Instruction}
    (hi : ∀ n, i = .setGlobal n → ∀ g v, I g → I (g.set n.toNat v)) :
    Keeps (fun m => I m.globals) (execute frame i) := by
  cases i with
  | setGlobal n => exact (spares_pop I).bind fun v => .of_modify fun _ h => hi n rfl _ v h
  | constant => exact (spares_constant _ _ I).bind fun _ => spares_push _ I
  | pop => exact (spares_pop I).bind fun _ => .of_modify fun _ h => h
  | add | sub | mul | div | equal | notEqual | greaterThan => exact spares_binary _ I
  | pushTrue | pushFalse | pushNull | currentClosure => exact spares_push _ I
  | negate | bang => exact spares_unary _ I
  | jumpNotTruthy target =>
    refine (spares_pop I).bind fun v => ?_
    split
    · exact .pure _
    · exact spares_jumpTo _ I
  | jump target => exact spares_jumpTo _ I
  | getGlobal => exact Keeps.get.bind fun _ => spares_push _ I
  | getLocal =>
    exact (spares_localSlot _ _ _ I).bind fun _ => Keeps.get.bind fun _ => spares_push _ I
  | setLocal =>
    exact (spares_localSlot _ _ _ I).bind fun _ => (spares_pop I).bind fun _ =>
      .of_modify fun _ h => h
  | getBuiltin =>
    rw [execute]
    split
    · exact spares_push _ I
    · exact .fail _
  | getFree =>
    rw [execute]
    split
    · exact spares_push _ I
    · exact .fail _
  | makeArray => exact (spares_popMany _ I).bind fun _ => spares_push _ I
  | makeMap =>
    exact (spares_popMany _ I).bind fun _ => (Keeps.ofExcept _).bind fun _ => spares_push _ I
  | index =>
    exact (spares_pop I).bind fun _ => (spares_pop I).bind fun _ =>
      (Keeps.ofExcept _).bind fun _ => spares_push _ I
  | call => exact spares_call _ I
  | returnValue => exact (spares_pop I).bind fun _ => spares_returnWith _ I
  | returnNull => exact spares_returnWith _ I
  | makeClosure =>
    refine (spares_constant _ _ I).bind fun v => ?_
    split
    · exact (spares_popMany _ I).bind fun _ => Keeps.bind (fun _ h => h) fun _ => spares_push _ I
    · exact .fail _

/-- Spending changes the budget, or ends the run. -/
theorem spares_spend : Spares spend := by
  intro I m hm
  unfold spend
  split <;> exact hm

/-- **What a round does to the globals**: nothing, unless the next instruction
sets one. -/
theorem globals_step {I : Globals → Prop} {m : Machine} (hm : I m.globals)
    (hset : ∀ frame callers n, m.frames = frame :: callers →
      frame.closure.body.code.decodeAt frame.ip = some (.ok (.setGlobal n)) →
        ∀ g v, I g → I (g.set n.toNat v)) : I (remains (step m)).globals := by
  cases hframes : m.frames with
  | nil =>
    rw [step_of_no_frames hframes]
    exact hm
  | cons frame callers =>
    have hnext := hset frame callers
    rw [step_of_frames hframes]
    cases hdecode : frame.closure.body.code.decodeAt frame.ip with
    | none =>
      cases callers with
      | nil => exact hm
      | cons => exact (spares_returnWith .null I).bind (fun _ => .pure true) m hm
    | some result =>
      cases result with
      | error cause => exact hm
      | ok i =>
        have hround : Keeps (fun m => I m.globals)
            (do spend; advance frame callers i; execute frame i; pure true) := by
          refine (spares_spend I).bind fun _ => Keeps.bind (.of_modify fun _ h => h) fun _ => ?_
          refine (keeps_execute frame fun n hi => ?_).bind fun _ => .pure true
          exact hnext n hframes (hi ▸ hdecode)
        exact hround m hm

end Exec

/-! ## Runs -/

/-- **All functions of a machine run routines that meet a condition**, and so do
its frames. -/
structure Machine.Runs (P : Routine → Prop) (m : Machine) : Prop where
  /-- The functions. -/
  bodies : m.At P m.frames m.sp
  /-- The frames. -/
  frames : ∀ frame ∈ m.frames, frame.closure.value.Bodies P

namespace Machine.Runs

variable {P : Routine → Prop} {m m' : Machine}

/-- A machine whose frames all run routines of some kind runs such routines. -/
theorem of_at {frames : List Frame} {sp : Nat} (h : m.At P frames sp)
    (hframes : ∀ frame ∈ frames, frame.closure.value.Bodies P) : m.Runs P :=
  ⟨{ h with frames := rfl, sp := rfl }, h.frames.symm ▸ hframes⟩

/-- **A round calls nothing that was not there before.** -/
theorem step (h : m.Runs P) {running : Bool} (hstep : Exec.step m = .ok running m') :
    m'.Runs P := by
  obtain ⟨hbodies, hall⟩ := h
  cases hframes : m.frames with
  | nil =>
    rw [Exec.step_of_no_frames hframes] at hstep
    cases hstep
    exact ⟨hbodies, hall⟩
  | cons frame callers =>
    rw [hframes] at hbodies hall
    obtain ⟨hframe, hcallers⟩ := List.forall_mem_cons.1 hall
    rcases hbodies.step hframe _ _ hstep with rfl | ⟨-, hm'⟩ | ⟨i, -, hm'⟩
    · exact of_at hbodies hall
    · exact of_at hm' hcallers
    · -- A frame that goes on runs what it ran before, and a new one what was found on the stack.
      cases hm' with
      | next _ _ hm' => exact of_at hm' (List.forall_mem_cons.2 ⟨hframe, hcallers⟩)
      | jump _ _ hm' => exact of_at hm' (List.forall_mem_cons.2 ⟨hframe, hcallers⟩)
      | enter _ _ hclosure hm' =>
        exact of_at hm' (List.forall_mem_cons.2 ⟨hclosure,
          List.forall_mem_cons.2 ⟨hframe, hcallers⟩⟩)
      | back _ _ hm' => exact of_at hm' hcallers
      | ended _ hm' => exact of_at hm' nofun

end Machine.Runs

/-- Setting a global makes room for it, and for those before it. -/
theorem Globals.size_set (g : Globals) (i : Nat) (v : Value) :
    (g.set i v).size = max g.size (i + 1) := by
  unfold Globals.set Globals.size
  split
  · rw [Array.size_setIfInBounds]
    omega
  · rw [Array.size_push, Array.size_append, Array.size_replicate]
    omega

/-- A global that is set has its new value, and the others have theirs. Slots
that have come into being by it are null. -/
theorem Globals.get_set (globals : Globals) (n : Nat) (v : Value) (i : Nat) :
    (globals.set n v).get i = if i = n then v else globals.get i := by
  unfold Globals.set Globals.get
  by_cases hlt : n < globals.slots.size
  · rw [if_pos hlt]
    show (globals.slots.setIfInBounds n v)[i]?.getD .null = _
    rw [Array.getElem?_setIfInBounds]
    by_cases hi : i = n
    · rw [if_pos hi.symm, if_pos hi, if_pos hlt, Option.getD_some]
    · rw [if_neg (Ne.symm hi), if_neg hi]
  · rw [if_neg hlt]
    show ((globals.slots ++ Array.replicate (n - globals.slots.size) Value.null).push v)[i]?.getD
      .null = _
    have hsize : globals.slots.size + (n - globals.slots.size) = n := by omega
    rw [Array.getElem?_push, Array.size_append, Array.size_replicate, Array.getElem?_append,
      Array.getElem?_replicate, hsize]
    by_cases hi : i = n
    · rw [if_pos hi, if_pos hi, Option.getD_some]
    · rw [if_neg hi, if_neg hi]
      by_cases hin : i < globals.slots.size
      · rw [if_pos hin]
      · rw [if_neg hin, Array.getElem?_eq_none (Nat.not_lt.1 hin)]
        split <;> rfl

/-- **A machine whose globals stay below a bound**: they are, and all code that
it can come to sets only globals that are. -/
structure Machine.Confined (bound : Nat) (m : Machine) : Prop where
  /-- Frames stand where an instruction begins. -/
  stands : m.Stands
  /-- All code sets only globals below the bound. -/
  runs : m.Runs fun body => body.code.SetsBelow bound
  /-- So far they are below the bound. -/
  size : m.globals.size ≤ bound

namespace Machine.Confined

variable {bound : Nat} {m m' : Machine}

/-- **A round keeps the globals below the bound**, also one that halts. -/
theorem size_step (h : m.Confined bound) : (Exec.remains (Exec.step m)).globals.size ≤ bound := by
  refine Exec.globals_step (I := fun g => g.size ≤ bound) h.size ?_
  intro frame callers n hframes hdecode g v hg
  have hstands := h.stands.stacked
  rw [hframes] at hstands
  obtain ⟨front, back, hcode, -, hip, -⟩ := hstands.stands.place
  have hbody : frame.closure.body.code.SetsBelow bound := by
    cases h.runs.frames frame (hframes ▸ List.mem_cons_self) with
    | closure hbody => exact hbody
  rw [hcode, hip] at hdecode
  obtain ⟨rest, rfl⟩ := Instruction.eq_cons_of_decodeAt hdecode
  have hlt := hbody (sizeAll front) n (hcode ▸ Code.mem_decode_encodeAll.2 ⟨front, rest, rfl, rfl⟩)
  rw [Globals.size_set]
  exact Nat.max_le.2 ⟨hg, hlt⟩

/-- One round keeps the globals within the bound, since the code that is
executed names none beyond it. -/
theorem step (h : m.Confined bound) {running : Bool} (hstep : Exec.step m = .ok running m') :
    m'.Confined bound := by
  have hsize := h.size_step
  rw [hstep] at hsize
  exact ⟨h.stands.step hstep, h.runs.step hstep, hsize⟩

/-- So do any number of rounds. -/
theorem path {n : Nat} (h : m.Confined bound) (hpath : Path n m m') : m'.Confined bound := by
  induction hpath with
  | refl => exact h
  | step _ hstep _ ih => exact ih (h.step hstep)

end Machine.Confined

/-- **However a run ends, the globals are below the bound.** -/
theorem Finishes.size_globals_le {bound : Nat} {m m' : Machine} {outcome : Except Halt Unit}
    (h : m.Confined bound) (hfinishes : Finishes m outcome m') : m'.globals.size ≤ bound := by
  cases hfinishes with
  | ends hpath => exact (h.path hpath).size
  | halts hpath _ hstep =>
    have hsize := (h.path hpath).size_step
    rw [hstep] at hsize
    exact hsize

end StackScript
