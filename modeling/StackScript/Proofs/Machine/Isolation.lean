import StackScript.Proofs.Machine.Variables

/-!
# Frames are isolated from each other

All frames keep their values on one stack, and only arithmetic on the stack
pointer keeps them apart. What a frame and the frames above it must not touch is
what lies below its first slot, and the frames of its callers:
`Machine.SameBelow`. A round leaves these as they are, both when it goes on
(`Machine.Orderly.sameBelow`) and when it halts
(`Machine.Orderly.sameBelow_of_halt`), and so does a run in which the frame does
not return (`Stays.sameBelow`). When it does return, its result is where the
function was that was called, and nothing is above the result
(`Machine.Returned`).
-/

namespace StackScript

open Exec (Yields)

/-! ## Instructions that halt -/

/-- **What holds of the machine that a computation leaves behind when it
halts.** -/
def Exec.Breaks {α : Type} (x : Exec α) (m : Machine) (E : Machine → Prop) : Prop :=
  ∀ e m', x m = .error e m' → E m'

namespace Exec.Breaks

variable {α β : Type} {m : Machine} {x : Exec α} {E : Machine → Prop}

/-- **A computation after another halts in the first or in the second**, and in
the second only after the first has yielded something. -/
theorem bind {f : α → Exec β} {Q : α → Machine → Prop} (hx : Breaks x m E) (hyields : Yields x m Q)
    (hf : ∀ a m', Q a m' → Breaks (f a) m' E) : Breaks (x >>= f) m E := by
  intro e m'' h
  cases hres : x m with
  | ok a m' =>
    rw [Exec.bind_of_ok f hres] at h
    exact hf a m' (hyields a m' hres) e m'' h
  | error e' m' =>
    rw [Exec.bind_of_error f hres] at h
    cases h
    exact hx e m'' hres

/-- A computation that does not halt has nothing to say here. -/
theorem of_eq_ok {a : α} {m' : Machine} (h : x m = .ok a m') : Breaks x m E := by
  intro e m'' h'
  rw [h] at h'
  cases h'

/-- To give another value in the end changes nothing about halting. -/
theorem bind_pure (hx : Breaks x m E) (b : β) : Breaks (do let _ ← x; pure b) m E :=
  hx.bind (Q := fun _ _ => True) (fun _ _ _ => trivial) fun _ _ _ => of_eq_ok rfl

/-- A computation that halts before it changes anything. -/
theorem of_same (hx : Breaks x m (· = m)) (hm : E m) : Breaks x m E := by
  intro e m' h
  rw [hx e m' h]
  exact hm

/-- A failure leaves the machine as it is. So do all operations up to
`localSlot` when they fail: they test first and change afterwards. -/
theorem fail (cause : RuntimeError) : Breaks (Exec.fail cause : Exec α) m (· = m) := by
  intro e m' h
  cases h
  rfl

theorem ofExcept (r : Except RuntimeError α) : Breaks (Exec.ofExcept r) m (· = m) := by
  cases r with
  | ok a => exact of_eq_ok rfl
  | error cause => exact fail cause

theorem push (v : Value) : Breaks (Exec.push v) m (· = m) := by
  intro e m' h
  unfold Exec.push at h
  split at h <;> cases h
  rfl

theorem pop : Breaks Exec.pop m (· = m) := by
  intro e m' h
  unfold Exec.pop at h
  split at h <;> cases h
  rfl

theorem popMany (count : Nat) : Breaks (Exec.popMany count) m (· = m) := by
  intro e m' h
  unfold Exec.popMany at h
  split at h <;> cases h
  rfl

theorem discardFrom (i : Nat) : Breaks (Exec.discardFrom i) m (· = m) := by
  intro e m' h
  unfold Exec.discardFrom at h
  split at h <;> cases h
  rfl

theorem enter (c : Closure) (base given : Nat) : Breaks (Exec.enter c base given) m (· = m) := by
  intro e m' h
  unfold Exec.enter at h
  repeat' split at h
  all_goals cases h
  all_goals rfl

theorem constant (op : Op) (index : Nat) : Breaks (Exec.constant op index) m (· = m) := by
  intro e m' h
  rw [Exec.constant_eq] at h
  cases hfind : m.constants[index]? with
  | some v =>
    rw [hfind] at h
    cases h
  | none =>
    rw [hfind] at h
    cases h
    rfl

theorem localSlot (frame : Frame) (op : Op) (index : Nat) :
    Breaks (Exec.localSlot frame op index) m (· = m) := by
  intro e m' h
  have h : (if frame.closure.body.locals ≤ index || m.sp ≤ frame.base + index then
      Exec.fail (.invalidOperand op index) else pure (frame.base + index) : Exec Nat) m =
      .error e m' := h
  split at h
  · exact fail _ e m' h
  · cases h

end Exec.Breaks

open Exec (Breaks)

namespace Machine.Piled

variable {frame : Frame} {callers frames : List Frame} {xs ys : List Value} {m : Machine}
  {i : Instruction} {n : Nat}

/-- A machine that has popped some values and nothing else. -/
theorem kept (h : m.Piled frames xs) (hys : ys.length ≤ n) :
    m.frames = frames ∧ m.Retains n (xs ++ ys) :=
  ⟨h.frames, h.toHolds.retains hys⟩

/-- A machine that has not changed retains everything. -/
theorem kept_all (h : m.Piled frames xs) (n : Nat) : m.frames = frames ∧ m.Retains n xs :=
  List.append_nil xs ▸ h.kept (Nat.zero_le n)

/-- An operator that fails has taken its two operands, and no more. -/
theorem breaks_binary (h : m.Piled frames xs) (op : BinaryOp) :
    Breaks (Exec.binary op) m fun m' => m'.frames = frames ∧ m'.Retains 2 xs := by
  refine Breaks.pop.of_same (h.kept_all 2) |>.bind h.pop ?_
  rintro right m₁ ⟨ys, rfl, h₁⟩
  refine Breaks.pop.of_same (h₁.kept (Nat.le_succ _)) |>.bind h₁.pop ?_
  rintro left m₂ ⟨zs, rfl, h₂⟩
  rw [List.append_assoc]
  have hkept : m₂.frames = frames ∧ m₂.Retains 2 (zs ++ ([left] ++ [right])) :=
    h₂.kept (Nat.le_refl 2)
  refine ((Breaks.ofExcept _).of_same hkept).bind (Yields.ofExcept _) ?_
  rintro v _ ⟨-, rfl⟩
  exact (Breaks.push v).of_same hkept

/-- A unary operator has taken one. -/
theorem breaks_unary (h : m.Piled frames xs) (op : UnaryOp) :
    Breaks (Exec.unary op) m fun m' => m'.frames = frames ∧ m'.Retains 1 xs := by
  refine Breaks.pop.of_same (h.kept_all 1) |>.bind h.pop ?_
  rintro operand m₁ ⟨ys, rfl, h₁⟩
  have hkept : m₁.frames = frames ∧ m₁.Retains 1 (ys ++ [operand]) := h₁.kept (Nat.le_refl 1)
  refine ((Breaks.ofExcept _).of_same hkept).bind (Yields.ofExcept _) ?_
  rintro v _ ⟨-, rfl⟩
  exact (Breaks.push v).of_same hkept

/-- A builtin function that fails has taken nothing below its own slot. -/
theorem breaks_callBuiltin (h : m.Piled frames xs) (b : Builtin) (callee : Nat) :
    Breaks (Exec.callBuiltin b callee) m fun m' =>
      m'.frames = frames ∧ m'.Retains (xs.length - callee) xs := by
  show Breaks (do
    let result ← Exec.ofExcept (b.call (m.stack.extract (callee + 1) m.sp).toList)
    modify fun m₁ => { m₁ with
      output := m₁.output ++ b.output (m.stack.extract (callee + 1) m.sp).toList }
    Exec.discardFrom callee
    Exec.push result) m _
  refine ((Breaks.ofExcept _).of_same (h.kept_all _)).bind (Yields.ofExcept _) ?_
  rintro v m₁ ⟨-, rfl⟩
  have hwritten : ∀ output, ({ m₁ with output } : Machine).Piled frames xs :=
    fun _ => h.of_eq rfl rfl h.frames
  refine ((Breaks.discardFrom callee).of_same ((hwritten _).kept_all _)).bind
    ((hwritten _).discardFrom callee) fun _ m₂ ⟨_, h₂⟩ => ?_
  have hkept : m₂.frames = frames ∧
      m₂.Retains (xs.length - callee) (xs.take callee ++ xs.drop callee) :=
    h₂.kept (Nat.le_of_eq List.length_drop)
  rw [List.take_append_drop] at hkept
  exact (Breaks.push v).of_same hkept

/-- A call that fails leaves what is below the callee. -/
theorem breaks_call (h : m.Piled frames xs) (count : Nat) :
    Breaks (Exec.call count) m fun m' => m'.frames = frames ∧ m'.Retains (count + 1) xs := by
  intro e m' hx
  have hsame : m' = m → m'.frames = frames ∧ m'.Retains (count + 1) xs :=
    fun heq => heq ▸ h.kept_all (count + 1)
  rw [Exec.call_eq, h.sp_eq] at hx
  split at hx
  · exact hsame (Breaks.fail _ e m' hx)
  · next hn =>
    generalize m.slot (xs.length - (count + 1)) = callee at hx
    cases callee with
    | closure identity body captured => exact hsame (Breaks.enter _ _ _ e m' hx)
    | builtin b =>
      have hbuiltin := h.breaks_callBuiltin b _ e m' hx
      rwa [Nat.sub_sub_self (Nat.not_lt.1 hn)] at hbuiltin
    | _ => exact hsame (Breaks.fail _ e m' hx)

/-- **An instruction that halts has popped some of its operands at most**,
unless it returns. -/
theorem breaks_execute (h : m.Piled frames xs) (hreturn : i ≠ .returnValue ∧ i ≠ .returnNull) :
    Breaks (Exec.execute frame i) m fun m' => m'.frames = frames ∧ m'.Retains i.takes xs := by
  have hkept := h.kept_all i.takes
  cases i with
  | constant index =>
    exact ((Breaks.constant _ _).of_same hkept).bind (h.constant _ _) fun v m₁ h₁ =>
      (Breaks.push v).of_same (h₁.kept_all _)
  | pop => exact (Breaks.pop.of_same hkept).bind h.pop fun _ _ _ => .of_eq_ok rfl
  | add | sub | mul | div | equal | notEqual | greaterThan => exact h.breaks_binary _
  | pushTrue | pushFalse | pushNull | currentClosure => exact (Breaks.push _).of_same hkept
  | negate | bang => exact h.breaks_unary _
  | jumpNotTruthy target =>
    refine (Breaks.pop.of_same hkept).bind h.pop fun v _ _ => ?_
    split <;> exact .of_eq_ok rfl
  | jump target => exact .of_eq_ok rfl
  | getGlobal index => exact (Breaks.push _).of_same hkept
  | setGlobal index => exact (Breaks.pop.of_same hkept).bind h.pop fun _ _ _ => .of_eq_ok rfl
  | getLocal index =>
    refine ((Breaks.localSlot _ _ _).of_same hkept).bind (Machine.At.localSlot _ _) ?_
    rintro slot _ ⟨rfl, -⟩
    exact (Breaks.push _).of_same hkept
  | setLocal index =>
    refine ((Breaks.localSlot _ _ _).of_same hkept).bind (Machine.At.localSlot _ _) ?_
    rintro slot _ ⟨rfl, -⟩
    exact (Breaks.pop.of_same hkept).bind h.pop fun _ _ _ => .of_eq_ok rfl
  | getBuiltin index =>
    rw [Exec.execute]
    split
    · exact (Breaks.push _).of_same hkept
    · exact (Breaks.fail _).of_same hkept
  | getFree index =>
    rw [Exec.execute]
    split
    · exact (Breaks.push _).of_same hkept
    · exact (Breaks.fail _).of_same hkept
  | makeArray count =>
    refine ((Breaks.popMany _).of_same hkept).bind (h.popMany _) ?_
    rintro vs m₁ ⟨ys, rfl, hlen, h₁⟩
    exact (Breaks.push _).of_same (h₁.kept (Nat.le_of_eq hlen))
  | makeMap count =>
    refine ((Breaks.popMany _).of_same hkept).bind (h.popMany _) ?_
    rintro vs m₁ ⟨ys, rfl, hlen, h₁⟩
    -- The operands are gone by the time a key is found to be of no use.
    have hpopped := h₁.kept (Nat.le_of_eq hlen)
    refine ((Breaks.ofExcept _).of_same hpopped).bind (Yields.ofExcept _) ?_
    rintro entries _ ⟨-, rfl⟩
    exact (Breaks.push _).of_same hpopped
  | index =>
    refine (Breaks.pop.of_same hkept).bind h.pop ?_
    rintro key m₁ ⟨ys, rfl, h₁⟩
    refine (Breaks.pop.of_same (h₁.kept (Nat.le_succ _))).bind h₁.pop ?_
    rintro container m₂ ⟨zs, rfl, h₂⟩
    rw [List.append_assoc]
    have hpopped : m₂.frames = frames ∧ m₂.Retains 2 (zs ++ ([container] ++ [key])) :=
      h₂.kept (Nat.le_refl 2)
    refine ((Breaks.ofExcept _).of_same hpopped).bind (Yields.ofExcept _) ?_
    rintro v _ ⟨-, rfl⟩
    exact (Breaks.push _).of_same hpopped
  | call count => exact h.breaks_call _
  | returnValue => exact (hreturn.1 rfl).elim
  | returnNull => exact (hreturn.2 rfl).elim
  | makeClosure index captured =>
    refine ((Breaks.constant _ _).of_same hkept).bind (h.constant _ _) fun v m₁ h₁ => ?_
    split
    · refine ((Breaks.popMany _).of_same (h₁.kept_all _)).bind (h₁.popMany _) ?_
      rintro vs m₂ ⟨ys, rfl, hlen, h₂⟩
      have hnext : ({ m₂ with nextIdentity := m₂.nextIdentity + 1 } : Machine).Piled frames ys :=
        h₂.of_eq rfl rfl h₂.frames
      exact (Breaks.push _).of_same (hnext.kept (Nat.le_of_eq hlen))
    · exact (Breaks.fail _).of_same (h₁.kept_all _)

/-- A return does not halt: there is room for the result where the function was
that was called. -/
theorem breaks_returnWith (h : m.Piled (frame :: callers) xs) (v : Value)
    (hbase : frame.base ≤ xs.length) {E : Machine → Prop} : Breaks (Exec.returnWith v) m E := by
  intro e m' hx
  rw [Exec.returnWith_eq, h.frames] at hx
  cases callers with
  | nil => cases hx
  | cons caller callers =>
    have hclosed :
        ({ m with frames := caller :: callers } : Machine).Piled (caller :: callers) xs :=
      h.of_eq rfl rfl rfl
    have hreturn : Breaks (do Exec.discardFrom (frame.base - 1); Exec.push v)
        { m with frames := caller :: callers } E := by
      refine Breaks.bind ?_ (hclosed.discardFrom _) fun _ m₁ ⟨hle, h₁⟩ => ?_
      · refine .of_eq_ok (if_neg (show ¬ m.sp < frame.base - 1 from ?_))
        rw [h.sp_eq]
        omega
      · have hroom : (xs.take (frame.base - 1)).length < stackSize := by
          have hlimit := h.room
          have hpos : 0 < stackSize := by decide
          rw [List.length_take_of_le hle]
          omega
        rw [← h₁.eq]
        exact .of_eq_ok (Exec.push_of_lt v hroom)
    exact hreturn e m' hx

/-- **An instruction that halts has popped some of its operands at most.** -/
theorem breaks_instruction (h : m.Piled (frame.past i :: callers) xs)
    (hfloor : frame.floor + i.takes ≤ xs.length) :
    Breaks (Exec.execute frame i) m fun m' =>
      m'.frames = frame.past i :: callers ∧ m'.Retains i.takes xs := by
  have hbase : frame.base ≤ frame.floor := Nat.le_add_right ..
  by_cases hvalue : i = .returnValue
  · subst hvalue
    refine (Breaks.pop.of_same (h.kept_all _)).bind h.pop ?_
    rintro v m₁ ⟨ys, rfl, h₁⟩
    rw [List.length_append] at hfloor
    have hfloor' : frame.floor ≤ ys.length := Nat.le_of_succ_le_succ hfloor
    exact h₁.breaks_returnWith v (Nat.le_trans hbase hfloor')
  by_cases hnull : i = .returnNull
  · subst hnull
    exact h.breaks_returnWith .null (Nat.le_trans hbase hfloor)
  exact h.breaks_execute ⟨hvalue, hnull⟩

end Machine.Piled

/-! ## Rounds that halt -/

/-- **A round that halts** has changed nothing, or its instruction has
halted. -/
theorem Exec.breaks_step {m : Machine} {frame : Frame} {callers : List Frame} {i : Instruction}
    {E : Machine → Prop} (hframes : m.frames = frame :: callers)
    (hi : frame.closure.body.code.decodeAt frame.ip = some (.ok i)) (hm : E m)
    (h : ∀ budget journal, Breaks (execute frame i) (m.past frame callers i budget journal) E) :
    Breaks step m E := by
  have hspend : Breaks spend m (· = m) := by
    intro e m' hx
    unfold spend at hx
    split at hx <;> cases hx
    rfl
  have hspent : Yields spend m fun _ m' => ∃ budget, m' = { m with budget } := by
    intro _ m' hx
    unfold spend at hx
    split at hx <;> cases hx
    · exact ⟨m.budget, rfl⟩
    · exact ⟨_, rfl⟩
  have hround : Breaks (do
      spend
      advance frame callers i
      execute frame i
      pure true) m E := by
    refine (hspend.of_same hm).bind hspent ?_
    rintro _ _ ⟨budget, rfl⟩
    have hadvance : Yields (advance frame callers i) { m with budget } fun _ m' =>
        ∃ journal, m' = m.past frame callers i budget journal := Yields.of_eq_ok rfl ⟨_, rfl⟩
    refine Breaks.bind (.of_eq_ok rfl) hadvance ?_
    rintro _ _ ⟨journal, rfl⟩
    exact (h budget journal).bind_pure true
  intro e m' hx
  rw [step_of_frames hframes, hi] at hx
  exact hround e m' hx

namespace Machine

variable {bound : Nat} {m m' : Machine} {frame : Frame} {callers front : List Frame} {e : Halt}

/-- **A round that halts leaves the variables of its frame and all that is below
them**, and the frame is the newest still. -/
theorem Orderly.halt (h : m.Orderly bound) (hframes : m.frames = frame :: callers) :
    Breaks Exec.step m fun m' => (∃ ip, m'.frames = { frame with ip } :: callers) ∧
      ∀ j < frame.floor, m'.slot j = m.slot j := by
  obtain ⟨xs, hxs⟩ := h.holds
  have hpiled : m.Piled (frame :: callers) xs := ⟨hxs, hframes⟩
  have hframe := hxs.sp_eq ▸ h.frame_stands hframes
  have hsame : (∃ ip, m.frames = { frame with ip } :: callers) ∧
      ∀ j < frame.floor, m.slot j = m.slot j := ⟨⟨frame.ip, hframes⟩, fun _ _ => rfl⟩
  cases hdecode : frame.closure.body.code.decodeAt frame.ip with
  | none =>
    -- At the end of its code the frame returns, and a return does not halt.
    have hbase : frame.base ≤ xs.length := by
      have hsp := hframe.sp_eq
      unfold Frame.floor at hsp
      omega
    intro e m' hx
    rw [Exec.step_of_frames hframes, hdecode] at hx
    dsimp only at hx
    split at hx
    · cases hx
    · have hreturn : Breaks (do Exec.returnWith .null; pure true) m fun _ => False :=
        (hpiled.breaks_returnWith .null hbase).bind_pure true
      exact (hreturn e m' hx).elim
  | some result =>
    cases result with
    | error cause =>
      intro e m' hx
      rw [Exec.step_of_frames hframes, hdecode] at hx
      cases hx
      exact hsame
    | ok i =>
      refine Exec.breaks_step hframes hdecode hsame fun budget journal => ?_
      have hfloor := hframe.takes_le hdecode
      intro e m' hx
      obtain ⟨hframes', hretains⟩ := (hpiled.past budget journal).breaks_instruction hfloor e m' hx
      obtain ⟨ys, hleaves⟩ : ∃ ys, m'.Leaves frame callers xs ys := hretains.leaves hfloor
      refine ⟨⟨_, hframes'⟩, fun j hj => ?_⟩
      rw [hleaves.slot_of_lt_floor (hframes' ▸ Nat.lt_succ_self _) hj, hxs.slot_eq]

/-! ## What is below a frame -/

/-- **A machine that has all that is below a frame in common with another**: the
slots before its first, and the frames of its callers. -/
structure SameBelow (frame : Frame) (callers : List Frame) (m m' : Machine) : Prop where
  /-- The frame is there, and its callers are as they were. -/
  frames : ∃ front ip, m'.frames = front ++ { frame with ip } :: callers
  /-- So are the slots. -/
  slots : ∀ j < frame.base, m'.slot j = m.slot j

/-- A frame that goes on leaves what is below it. -/
theorem Orderly.slot_of_executing (h : m.Orderly bound) (hframes : m.frames = frame :: callers)
    (hstep : Exec.step m = .ok true m') (hlt : callers.length < m'.frames.length) {j : Nat}
    (hj : j < frame.base) : m'.slot j = m.slot j := by
  obtain ⟨xs, hxs⟩ := h.holds
  have hpiled : m.Piled (frame :: callers) xs := ⟨hxs, hframes⟩
  have hframe := hxs.sp_eq ▸ h.frame_stands hframes
  have hexecutes : ∀ {i}, frame.closure.body.code.decodeAt frame.ip = some (.ok i) →
      m'.slot j = m.slot j := by
    intro i hi
    obtain ⟨ys, hleaves⟩ := hpiled.step hframe (fun _ _ _ => h.params_le hxs) hi _ _ hstep
    rw [hleaves.slot_of_lt_floor hlt (Nat.lt_of_lt_of_le hj (Nat.le_add_right ..)),
      Instruction.getElem?_update_of_lt hj, hxs.slot_eq]
  obtain ⟨-, hturn⟩ := h.round hframes hstep
  cases hturn with
  | back hback => exact (Nat.lt_irrefl _ (hback ▸ hlt)).elim
  | next hi => exact hexecutes hi
  | enter hi => exact hexecutes hi

/-- **A round changes nothing below a frame** that does not return. -/
theorem Orderly.sameBelow (h : m.Orderly bound) (hframes : m.frames = front ++ frame :: callers)
    (hstep : Exec.step m = .ok true m') (hlt : callers.length < m'.frames.length) :
    m.SameBelow frame callers m' := by
  obtain ⟨front', ip, hframes', -⟩ := h.advance hframes hstep hlt
  refine ⟨⟨front', ip, hframes'⟩, fun j hj => ?_⟩
  cases front with
  | nil => exact h.slot_of_executing hframes hstep hlt hj
  | cons newest front =>
    have hordered := h.ordered
    rw [hframes] at hordered
    have hfloor : frame.base + frame.closure.body.locals < newest.base := hordered.floor_lt
    exact h.slot_of_lt_base hframes hstep (by omega)

/-- **So does a round that halts.** -/
theorem Orderly.sameBelow_of_halt (h : m.Orderly bound)
    (hframes : m.frames = front ++ frame :: callers) (hstep : Exec.step m = .error e m') :
    m.SameBelow frame callers m' := by
  cases front with
  | nil =>
    obtain ⟨⟨ip, hframes'⟩, hslots⟩ := h.halt hframes e m' hstep
    exact ⟨⟨[], ip, hframes'⟩, fun j hj => hslots j (Nat.lt_of_lt_of_le hj (Nat.le_add_right ..))⟩
  | cons newest front =>
    have hordered := h.ordered
    rw [hframes] at hordered
    have hfloor : frame.base + frame.closure.body.locals < newest.base := hordered.floor_lt
    obtain ⟨⟨ip, hframes'⟩, hslots⟩ := h.halt hframes e m' hstep
    refine ⟨⟨_ :: front, frame.ip, hframes'⟩, fun j hj => hslots j ?_⟩
    unfold Frame.floor
    omega

end Machine

/-- **A run in which a frame does not return changes nothing below it.** -/
theorem Stays.sameBelow {bound : Nat} {m m' : Machine} {frame : Frame} {callers front : List Frame}
    (h : Stays callers.length m m') (hm : m.Orderly bound)
    (hframes : m.frames = front ++ frame :: callers) : m.SameBelow frame callers m' := by
  induction h generalizing front frame with
  | here => exact ⟨⟨front, frame.ip, hframes⟩, fun _ _ => rfl⟩
  | @next m m₁ m' _ hstep hrest ih =>
    have hround := hm.sameBelow hframes hstep hrest.lt_left
    obtain ⟨front₁, ip, hframes₁⟩ := hround.frames
    have hrun := ih (hm.visits (.next hstep (.here _))) hframes₁
    exact ⟨hrun.frames, fun j hj => (hrun.slots j hj).trans (hround.slots j hj)⟩

/-! ## Calls -/

/-- **A round that calls a closure** and opens a frame for it. -/
structure Machine.Calls (caller : Frame) (callers : List Frame) (count : UInt8) (frame : Frame)
    (m m' : Machine) : Prop where
  /-- The newest frame makes the call. -/
  before : m.frames = caller :: callers
  /-- It is about to execute the instruction that does. -/
  decode : caller.closure.body.code.decodeAt caller.ip = some (.ok (.call count))
  /-- The round goes on. -/
  step : Exec.step m = .ok true m'
  /-- The frame that it opens is the newest, and the caller is past the
  instruction. -/
  after : m'.frames = frame :: caller.past (.call count) :: callers

namespace Machine.Orderly

variable {bound : Nat} {m m' : Machine} {caller frame : Frame} {callers : List Frame}
  {count : UInt8}

/-- **What a call finds.** -/
theorem entered (h : m.Orderly bound) (hcalls : m.Calls caller callers count frame m') :
    ∃ xs, m.Holds xs ∧ frame.ip = 0 ∧
      m'.Entered frame.closure frame.base count.toNat (caller.past (.call count) :: callers)
        xs := by
  obtain ⟨xs, hxs⟩ := h.holds
  have hpiled : m.Piled (caller :: callers) xs := ⟨hxs, hcalls.before⟩
  have hlt : callers.length + 1 < m'.frames.length := by
    rw [hcalls.after]
    exact Nat.lt_succ_self _
  obtain ⟨closure, base, hentered⟩ :=
    hpiled.step_of_call (fun _ _ _ => h.params_le hxs) hcalls.decode _ _ hcalls.step hlt
  obtain rfl : frame = ⟨closure, 0, base⟩ :=
    (List.cons.inj (hcalls.after.symm.trans hentered.piled.frames)).1
  exact ⟨xs, hxs, rfl, hentered⟩

/-- **Only calls open frames.** -/
theorem calls_of_lt (h : m.Orderly bound) (hstep : Exec.step m = .ok true m')
    (hlt : m.frames.length < m'.frames.length) :
    ∃ caller callers count frame, m.Calls caller callers count frame m' := by
  cases hframes : m.frames with
  | nil =>
    rw [Exec.step_of_no_frames hframes] at hstep
    cases hstep
  | cons caller callers =>
    have hordered := h.ordered
    have htidy := h.tidy
    rw [hframes] at hordered htidy hlt
    rcases htidy.round hordered.captured (hordered.bodies (h.frame_stands hframes)) _ _ hstep with
      ⟨hfalse, -⟩ | ⟨-, -, hm'⟩ | ⟨i, hi, hexecuted⟩
    · cases hfalse
    · rw [hm'.frames, List.length_cons] at hlt
      omega
    · cases hexecuted with
      | enter hcall _ _ hm' =>
        subst hcall
        exact ⟨caller, callers, _, _, hframes, hi, hstep, hm'.frames⟩
      | next _ _ hm' | jump _ _ hm' | back _ _ hm' | ended _ hm' =>
        rw [hm'.frames] at hlt
        simp only [List.length_cons, List.length_nil] at hlt
        omega

end Machine.Orderly

/-! ## Returns -/

/-- **A machine that has returned from a frame.** -/
structure Machine.Returned (frame : Frame) (callers : List Frame) (v : Value) (m m' : Machine) :
    Prop where
  /-- The callers are as they were. -/
  frames : m'.frames = callers
  /-- So is all that is below what was called. -/
  below : ∀ j < frame.base - 1, m'.slot j = m.slot j
  /-- The result is in its place. -/
  result : m'.slot (frame.base - 1) = v
  /-- It is on top of the stack. -/
  sp : m'.sp = frame.base
  /-- There is nothing above it. -/
  above : ∀ j, frame.base ≤ j → m'.slot j = .null

/-- **What an instruction returns.** -/
def Instruction.Returns (i : Instruction) (m : Machine) (v : Value) : Prop :=
  (i = .returnValue ∧ m.top? = some v) ∨ (i = .returnNull ∧ v = .null)

namespace Machine

variable {bound : Nat} {m m' : Machine} {frame caller : Frame} {callers : List Frame}
  {xs : List Value} {v : Value} {i : Instruction}

/-- Where the result of a return stands, in terms of the values that were on the
stack before it. -/
theorem Piled.returned (h : m'.Piled callers (xs.take (frame.base - 1) ++ [v])) (hm : m.Holds xs)
    (hpos : 0 < frame.base) (hle : frame.base ≤ xs.length) : m.Returned frame callers v m' := by
  have hlen : (xs.take (frame.base - 1)).length = frame.base - 1 :=
    List.length_take_of_le (by omega)
  refine ⟨h.frames, fun j hj => ?_, ?_, ?_, fun j hj => ?_⟩
  · rw [h.slot_eq, hm.slot_eq, List.getElem?_append_left (hlen.symm ▸ hj),
      List.getElem?_take_of_lt hj]
  · rw [h.slot_eq, List.getElem?_append_right (Nat.le_of_eq hlen), hlen, Nat.sub_self]
    rfl
  · rw [h.sp_eq, List.length_append, hlen, List.length_singleton]
    omega
  · rw [h.slot_eq, List.getElem?_eq_none]
    · rfl
    · rw [List.length_append, hlen, List.length_singleton]
      omega

/-- **An instruction that returns** puts its result in the place of what was
called. -/
theorem Piled.execute_return (h : m.Piled (frame.past i :: caller :: callers) xs)
    (hfloor : frame.floor + i.takes ≤ xs.length) (hi : i = .returnValue ∨ i = .returnNull) :
    Yields (Exec.execute frame i) m fun _ m' => ∃ v, i.Returns m v ∧
      m'.Piled (caller :: callers) (xs.take (frame.base - 1) ++ [v]) := by
  rcases hi with rfl | rfl
  · have htop := h.top?_eq
    refine h.pop.bind ?_
    rintro v m₁ ⟨ys, rfl, h₁⟩
    rw [List.getLast?_concat] at htop
    rw [List.length_append] at hfloor
    have hbase : frame.base - 1 ≤ ys.length := by
      have hlocals : frame.base ≤ frame.floor := Nat.le_add_right ..
      have htakes : frame.floor ≤ ys.length := Nat.le_of_succ_le_succ hfloor
      omega
    refine (h₁.returnTo v).mono fun _ m' ⟨_, h'⟩ => ⟨v, .inl ⟨rfl, htop⟩, ?_⟩
    rw [List.take_append_of_le_length hbase]
    exact h'
  · exact (h.returnTo .null).mono fun _ m' ⟨_, h'⟩ => ⟨.null, .inr ⟨rfl, rfl⟩, h'⟩

/-- **A frame that returns leaves its result and nothing else.** -/
theorem Orderly.returned (h : m.Orderly bound) (hframes : m.frames = frame :: caller :: callers)
    (hi : frame.closure.body.code.decodeAt frame.ip = some (.ok i))
    (hstep : Exec.step m = .ok true m') (hback : m'.frames.length ≤ callers.length + 1) :
    ∃ v, i.Returns m v ∧ m.Returned frame (caller :: callers) v m' := by
  obtain ⟨xs, hxs⟩ := h.holds
  have hpiled : m.Piled (frame :: caller :: callers) xs := ⟨hxs, hframes⟩
  have hfloor := (hxs.sp_eq ▸ h.frame_stands hframes).takes_le hi
  have hordered := h.ordered
  have htidy := h.tidy
  rw [hframes] at hordered htidy
  -- Only a return takes a frame away.
  have hreturns : i = .returnValue ∨ i = .returnNull := by
    rcases htidy.round hordered.captured (hordered.bodies (h.frame_stands hframes)) _ _ hstep with
      ⟨hfalse, -⟩ | ⟨-, hend, -⟩ | ⟨i', hi', hexecuted⟩
    · cases hfalse
    · rw [hi] at hend
      cases hend
    · rw [hi] at hi'
      cases hi'
      cases hexecuted with
      | back hreturns => exact hreturns
      | ended hnil => cases hnil
      | next _ _ hm' | jump _ _ hm' | enter _ _ _ hm' =>
        rw [hm'.frames] at hback
        simp only [List.length_cons] at hback
        omega
  -- There is a caller, so the frame was entered by a call and has the callee
  -- below it.
  have hbase : 0 < frame.base ∧ frame.base ≤ xs.length := by
    cases hordered with
    | call _ hlt _ =>
      have hlocals : frame.base ≤ frame.floor := Nat.le_add_right ..
      omega
  have hround : Yields Exec.step m fun _ m' => ∃ v, i.Returns m v ∧
      m'.Piled (caller :: callers) (xs.take (frame.base - 1) ++ [v]) :=
    Exec.yields_step hframes hi fun budget journal =>
      (hpiled.past budget journal).execute_return hfloor hreturns
  obtain ⟨v, hv, hm'⟩ := hround _ _ hstep
  exact ⟨v, hv, hm'.returned hxs hbase.1 hbase.2⟩

end Machine

end StackScript
