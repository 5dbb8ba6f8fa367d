import StackScript.Proofs.Machine.Depth

/-!
# What a round leaves of the values on the stack

An instruction works on the operands of its frame, at the top of the stack. Of
what lies below them it changes at most one value: a variable of the frame, if
it sets one (`Machine.Piled.execute`). A call leaves everything where it is, and
a return leaves everything below what was called.
-/

namespace StackScript

open Exec (Yields)

namespace Machine.Holds

variable {m : Machine} {xs : List Value}

theorem sp_eq (h : m.Holds xs) : m.sp = xs.length := by
  rw [← h.eq]
  rfl

theorem slot_eq (h : m.Holds xs) (i : Nat) : m.slot i = xs[i]?.getD .null := by
  rw [← h.eq, Exec.slot_withStack]

/-- The top of the stack is the last of its values. -/
theorem top?_eq (h : m.Holds xs) : m.top? = xs.getLast? := by
  rw [Machine.top?, h.sp_eq, h.slot_eq]
  rcases List.eq_nil_or_concat' xs with rfl | ⟨ys, v, rfl⟩
  · rfl
  · simp

/-- What is on the stack does not depend on the rest of the machine. -/
theorem of_eq {m' : Machine} (h : m.Holds xs) (hstack : m'.stack = m.stack) (hsp : m'.sp = m.sp) :
    m'.Holds xs := by
  have hstack' : m'.stack = padded xs := hstack.trans (congrArg Machine.stack h.eq).symm
  have hsp' : m'.sp = xs.length := hsp.trans h.sp_eq
  refine ⟨?_, h.room⟩
  rw [withStack, ← hstack', ← hsp']

/-- A jump moves no values. -/
theorem jumpTo (h : m.Holds xs) (ip : Nat) : (m.jumpTo ip).Holds xs := by
  unfold Machine.jumpTo
  split
  · exact h
  · exact h.of_eq rfl rfl

end Machine.Holds

/-- **A machine with these frames and these values on its stack.** -/
structure Machine.Piled (frames : List Frame) (xs : List Value) (m : Machine) : Prop extends
    m.Holds xs where
  /-- The frames. -/
  frames : m.frames = frames

/-- **All but so many of some values are still on the stack**, whatever is above
them now. -/
def Machine.Retains (n : Nat) (xs : List Value) (m : Machine) : Prop :=
  ∃ zs ys ws, m.Holds (zs ++ ys) ∧ xs = zs ++ ws ∧ ws.length ≤ n

/-- A machine that has lost so many values retains the others. -/
theorem Machine.Holds.retains {m : Machine} {xs ys : List Value} {n : Nat} (h : m.Holds xs)
    (hys : ys.length ≤ n) : m.Retains n (xs ++ ys) :=
  ⟨xs, [], ys, (List.append_nil xs).symm ▸ h, rfl, hys⟩

namespace Machine.Piled

variable {frames : List Frame} {xs ys : List Value} {m : Machine} {n : Nat}

/-- Something else changes than the stack. -/
theorem of_eq {m' : Machine} {frames' : List Frame} (h : m.Piled frames xs)
    (hstack : m'.stack = m.stack) (hsp : m'.sp = m.sp) (hframes : m'.frames = frames') :
    m'.Piled frames' xs :=
  ⟨h.toHolds.of_eq hstack hsp, hframes⟩

/-- A push that does not halt puts a value on top. -/
theorem push (h : m.Piled frames xs) (v : Value) :
    Yields (Exec.push v) m fun _ m' => m'.Piled frames (xs ++ [v]) := by
  intro _ m' hx
  rw [← h.eq] at hx
  by_cases hroom : xs.length < stackSize
  · rw [Exec.push_of_lt v hroom] at hx
    cases hx
    refine ⟨holds_withStack ?_, h.frames⟩
    rw [List.length_append]
    exact hroom
  · rw [Exec.push_of_le v (Nat.not_lt.1 hroom)] at hx
    cases hx

/-- A value has been pushed in the place of others. -/
theorem replace (h : m.Piled frames xs) (v : Value) (hys : ys.length ≤ n) :
    Yields (Exec.push v) m fun _ m' => m'.Retains n (xs ++ ys) :=
  (h.push v).mono fun _ _ h' => ⟨xs, [v], ys, h'.toHolds, rfl, hys⟩

/-- A pop that does not halt takes off the topmost value. -/
theorem pop (h : m.Piled frames xs) :
    Yields Exec.pop m fun v m' => ∃ ys, xs = ys ++ [v] ∧ m'.Piled frames ys := by
  intro v m' hx
  have hroom := h.room
  rw [← h.eq] at hx
  rcases List.eq_nil_or_concat' xs with rfl | ⟨ys, w, rfl⟩
  · cases hx
  · rw [Exec.pop_append w hroom] at hx
    cases hx
    refine ⟨ys, rfl, holds_withStack ?_, h.frames⟩
    rw [List.length_append] at hroom
    exact Nat.le_of_succ_le hroom

/-- Several values are taken off together, in the order in which they stand. -/
theorem popMany (h : m.Piled frames xs) (count : Nat) :
    Yields (Exec.popMany count) m fun vs m' =>
      ∃ ys, xs = ys ++ vs ∧ vs.length = count ∧ m'.Piled frames ys := by
  intro vs m' hx
  have hroom := h.room
  rw [← h.eq] at hx
  by_cases hcount : xs.length < count
  · rw [Exec.popMany, if_pos (show (m.withStack xs).sp < count from hcount)] at hx
    cases hx
  · obtain ⟨ys, zs, rfl, rfl⟩ : ∃ ys zs, xs = ys ++ zs ∧ zs.length = count := by
      refine ⟨xs.take (xs.length - count), xs.drop (xs.length - count), ?_, ?_⟩
      · rw [List.take_append_drop]
      · rw [List.length_drop]
        omega
    rw [Exec.popMany_append hroom] at hx
    cases hx
    refine ⟨ys, rfl, rfl, holds_withStack ?_, h.frames⟩
    rw [List.length_append] at hroom
    exact Nat.le_of_add_right_le hroom

/-- Slots are discarded down to a height that the stack has had. -/
theorem discardFrom (h : m.Piled frames xs) (i : Nat) :
    Yields (Exec.discardFrom i) m fun _ m' => i ≤ xs.length ∧ m'.Piled frames (xs.take i) := by
  intro _ m' hx
  have hroom := h.room
  rw [← h.eq] at hx
  by_cases hi : xs.length < i
  · rw [Exec.discardFrom, if_pos (show (m.withStack xs).sp < i from hi)] at hx
    cases hx
  · obtain ⟨ys, zs, rfl, rfl⟩ : ∃ ys zs, xs = ys ++ zs ∧ ys.length = i := by
      refine ⟨xs.take i, xs.drop i, (List.take_append_drop ..).symm, ?_⟩
      rw [List.length_take]
      omega
    rw [Exec.discardFrom_append hroom] at hx
    cases hx
    rw [List.take_left]
    rw [List.length_append] at hroom ⊢
    exact ⟨Nat.le_add_right .., holds_withStack (Nat.le_of_add_right_le hroom), h.frames⟩

/-- An operator takes two values at most from what is there. -/
theorem binary (h : m.Piled frames xs) (op : BinaryOp) :
    Yields (Exec.binary op) m fun _ m' => m'.Retains 2 xs := by
  refine h.pop.bind ?_
  rintro right m₁ ⟨ys, rfl, h₁⟩
  refine h₁.pop.bind ?_
  rintro left m₂ ⟨zs, rfl, h₂⟩
  refine (Yields.ofExcept _).bind ?_
  rintro v _ ⟨-, rfl⟩
  rw [List.append_assoc]
  exact h₂.replace v (Nat.le_refl _)

/-- A unary operator takes one. -/
theorem unary (h : m.Piled frames xs) (op : UnaryOp) :
    Yields (Exec.unary op) m fun _ m' => m'.Retains 1 xs := by
  refine h.pop.bind ?_
  rintro operand m₁ ⟨ys, rfl, h₁⟩
  refine (Yields.ofExcept _).bind ?_
  rintro v _ ⟨-, rfl⟩
  exact h₁.replace v (Nat.le_refl _)

/-! ## Calls and returns -/

/-- A closure that is called finds its other variables null. -/
theorem enter (h : m.Piled frames xs) {c : Closure} (hc : c.body.params ≤ c.body.locals)
    {base given : Nat} (hbase : base + given = xs.length) :
    Yields (Exec.enter c base given) m fun _ m' => given = c.body.params ∧
      m'.Piled (⟨c, 0, base⟩ :: frames)
        (xs ++ List.replicate (c.body.locals - c.body.params) Value.null) := by
  obtain ⟨ys, args, rfl, rfl⟩ : ∃ ys args, xs = ys ++ args ∧ ys.length = base := by
    refine ⟨xs.take base, xs.drop base, (List.take_append_drop ..).symm, ?_⟩
    rw [List.length_take]
    omega
  obtain rfl : given = args.length := by
    rw [List.length_append] at hbase
    omega
  intro _ m' hx
  rw [← h.eq] at hx
  by_cases harity : args.length = c.body.params
  · by_cases hfull : maxFrames ≤ (m.withStack (ys ++ args)).frames.length ∨
        stackSize < ys.length + c.body.locals
    · rw [Exec.enter_of_full harity hfull] at hx
      cases hx
    · obtain ⟨hframes, hroom⟩ := not_or.1 hfull
      have hframes' : m.frames.length < maxFrames := Nat.not_le.1 hframes
      rw [Exec.enter_of_room harity hframes' hc (Nat.not_lt.1 hroom)] at hx
      cases hx
      rw [List.append_assoc]
      refine ⟨harity, holds_withStack ?_, congrArg (_ :: ·) h.frames⟩
      rw [List.length_append, List.length_append, List.length_replicate]
      omega
  · rw [Exec.enter_of_arity harity] at hx
    cases hx

/-- A builtin function takes nothing below itself. -/
theorem callBuiltin (h : m.Piled frames xs) (b : Builtin) (callee : Nat) :
    Yields (Exec.callBuiltin b callee) m fun _ m' =>
      m'.frames = frames ∧ m'.Retains (xs.length - callee) xs := by
  show Yields (do
    let result ← Exec.ofExcept (b.call (m.stack.extract (callee + 1) m.sp).toList)
    modify fun m₁ => { m₁ with
      output := m₁.output ++ b.output (m.stack.extract (callee + 1) m.sp).toList }
    Exec.discardFrom callee
    Exec.push result) m _
  refine (Yields.ofExcept _).bind ?_
  rintro v m₁ ⟨-, rfl⟩
  have hwritten : ∀ output, ({ m₁ with output } : Machine).Piled frames xs :=
    fun _ => h.of_eq rfl rfl h.frames
  refine ((hwritten _).discardFrom callee).bind fun _ m₂ ⟨_, h₂⟩ => ?_
  refine (h₂.push v).mono fun _ m' h' => ⟨h'.frames, _, _, xs.drop callee, h'.toHolds, ?_, ?_⟩
  · rw [List.take_append_drop]
  · exact Nat.le_of_eq List.length_drop

end Machine.Piled

/-- **A machine that has entered a closure**: the frame begins at the arguments,
which stand above the closure, and the other variables are null. -/
structure Machine.Entered (closure : Closure) (base count : Nat) (frames : List Frame)
    (xs : List Value) (m : Machine) : Prop where
  /-- There are as many arguments as there should be. -/
  arity : closure.body.params = count
  /-- The arguments are on top of the stack. -/
  args : base + count = xs.length
  /-- The closure is below them. -/
  callee : 0 < base ∧ xs[base - 1]?.getD .null = closure.value
  /-- Nothing is added to the stack but null. -/
  piled : m.Piled (⟨closure, 0, base⟩ :: frames)
    (xs ++ List.replicate (closure.body.locals - closure.body.params) Value.null)

namespace Machine.Entered

variable {closure : Closure} {base count : Nat} {frames : List Frame} {xs : List Value}
  {m : Machine}

/-- What was on the stack is there still. -/
theorem slot_of_lt (h : m.Entered closure base count frames xs) {j : Nat} (hj : j < xs.length) :
    m.slot j = xs[j]?.getD .null := by
  rw [h.piled.slot_eq, List.getElem?_append_left hj]

/-- A variable that is no parameter is null. -/
theorem slot_of_param_le (h : m.Entered closure base count frames xs) {k : Nat}
    (hk : closure.body.params ≤ k) : m.slot (base + k) = .null := by
  have hargs := h.args
  rw [← h.arity] at hargs
  rw [h.piled.slot_eq, List.getElem?_append_right (by omega), List.getElem?_replicate]
  split <;> rfl

end Machine.Entered

namespace Machine.Piled

variable {frames : List Frame} {xs ys : List Value} {m : Machine} {n : Nat}

/-- A call replaces what is called and the arguments by a result, or opens a
frame for which the arguments are the first variables and the others null. -/
theorem call (h : m.Piled frames xs) (count : Nat)
    (hxs : ∀ identity body captured, .closure identity body captured ∈ xs →
      body.params ≤ body.locals) :
    Yields (Exec.call count) m fun _ m' => (m'.frames = frames ∧ m'.Retains (count + 1) xs) ∨
      ∃ closure base, m'.Entered closure base count frames xs := by
  intro _ m' hx
  rw [Exec.call_eq, h.sp_eq] at hx
  split at hx
  · cases hx
  · next hn =>
    have hmem : m.slot (xs.length - (count + 1)) ∈ xs := by
      rw [h.slot_eq, List.getElem?_eq_getElem (by omega)]
      exact List.getElem_mem _
    have hslot := h.slot_eq (xs.length - (count + 1))
    generalize m.slot (xs.length - (count + 1)) = callee at hmem hslot hx
    cases callee with
    | closure identity body captured =>
      have hbase : xs.length - (count + 1) + 1 + count = xs.length := by omega
      have henter := h.enter (c := ⟨identity, body, captured⟩) (hxs _ _ _ hmem) hbase _ _ hx
      exact .inr ⟨_, _, henter.1.symm, hbase, ⟨Nat.succ_pos _, hslot.symm⟩, henter.2⟩
    | builtin b =>
      have hbuiltin := h.callBuiltin b _ _ _ hx
      rw [Nat.sub_sub_self (Nat.not_lt.1 hn)] at hbuiltin
      exact .inl hbuiltin
    | _ => cases hx

/-- A return to a caller puts the result in the place of what was called. -/
theorem returnTo {frame caller : Frame} {callers : List Frame}
    (h : m.Piled (frame :: caller :: callers) xs) (v : Value) :
    Yields (Exec.returnWith v) m fun _ m' => frame.base - 1 ≤ xs.length ∧
      m'.Piled (caller :: callers) (xs.take (frame.base - 1) ++ [v]) := by
  intro a m' hx
  rw [Exec.returnWith_eq, h.frames] at hx
  have hclosed : ({ m with frames := caller :: callers } : Machine).Piled (caller :: callers) xs :=
    h.of_eq rfl rfl rfl
  have hreturn : Yields (do Exec.discardFrom (frame.base - 1); Exec.push v)
      { m with frames := caller :: callers } fun _ m' => frame.base - 1 ≤ xs.length ∧
        m'.Piled (caller :: callers) (xs.take (frame.base - 1) ++ [v]) :=
    (hclosed.discardFrom _).bind fun _ m₁ ⟨hle, h₁⟩ => (h₁.push v).mono fun _ _ h => ⟨hle, h⟩
  exact hreturn a m' hx

/-- A return leaves what is below the slot of what was called. -/
theorem returnWith {frame : Frame} {callers : List Frame} (h : m.Piled (frame :: callers) xs)
    (v : Value) :
    Yields (Exec.returnWith v) m fun _ m' => m'.frames = callers ∧
      ∃ ys, m'.Holds ys ∧ ys.take (frame.base - 1) = xs.take (frame.base - 1) := by
  cases callers with
  | nil =>
    intro a m' hx
    rw [Exec.returnWith_eq, h.frames] at hx
    cases hx
    exact ⟨rfl, xs, h.toHolds.of_eq rfl rfl, rfl⟩
  | cons caller callers =>
    refine (h.returnTo v).mono fun _ m' ⟨hle, h'⟩ => ?_
    refine ⟨h'.frames, _, h'.toHolds, ?_⟩
    rw [List.take_append_of_le_length (Nat.le_of_eq (List.length_take_of_le hle).symm),
      List.take_take, Nat.min_self]

end Machine.Piled

/-! ## Instructions -/

/-- **What an instruction does to the values below its operands**: it sets a
variable of the frame to the topmost value, or nothing. -/
def Instruction.update (i : Instruction) (base : Nat) (xs : List Value) : List Value :=
  match i with
  | .setLocal n => xs.set (base + n.toNat) (xs.getLast?.getD .null)
  | _ => xs

/-- All instructions but one leave the variables as they are. -/
theorem Instruction.update_of_ne {i : Instruction} (h : ∀ n, i ≠ .setLocal n) (base : Nat)
    (xs : List Value) : i.update base xs = xs := by
  cases i with
  | setLocal n => exact (h n rfl).elim
  | _ => rfl

/-- **What a frame leaves of the values on the stack**: while it goes on, its
variables and what is below them, and when it returns, what is below the slot of
what was called. -/
structure Machine.Leaves (frame : Frame) (callers : List Frame) (xs ys : List Value) (m : Machine) :
    Prop where
  /-- What is on the stack. -/
  holds : m.Holds ys
  /-- What is below the frame. -/
  below : ys.take (frame.base - 1) = xs.take (frame.base - 1)
  /-- The variables of the frame, if it goes on. -/
  own : callers.length < m.frames.length → ys.take frame.floor = xs.take frame.floor

/-- A frame that has worked on its operands leaves its variables. -/
theorem Machine.Retains.leaves {frame : Frame} {callers : List Frame} {xs : List Value}
    {m : Machine} {n : Nat} (h : m.Retains n xs) (hfloor : frame.floor + n ≤ xs.length) :
    ∃ ys, m.Leaves frame callers xs ys := by
  obtain ⟨zs, ys, ws, hholds, rfl, hlen⟩ := h
  rw [List.length_append] at hfloor
  have hfloor' : frame.floor ≤ zs.length := by omega
  have hbase : frame.base - 1 ≤ zs.length :=
    Nat.le_trans (Nat.sub_le ..) (Nat.le_trans (Nat.le_add_right ..) hfloor')
  refine ⟨zs ++ ys, hholds, ?_, fun _ => ?_⟩
  · rw [List.take_append_of_le_length hbase, List.take_append_of_le_length hbase]
  · rw [List.take_append_of_le_length hfloor', List.take_append_of_le_length hfloor']

namespace Machine.Piled

variable {frame : Frame} {callers frames : List Frame} {xs : List Value} {m : Machine}
  {i : Instruction}

/-- A return leaves nothing of the frame, whatever the frame has popped
before. -/
theorem leaves_returnWith {ip : Nat} (h : m.Piled ({ frame with ip } :: callers) xs) (v : Value)
    (ys : List Value) (hbase : frame.base - 1 ≤ xs.length) :
    Yields (Exec.returnWith v) m fun _ m' => ∃ zs, m'.Leaves frame callers (xs ++ ys) zs := by
  refine (h.returnWith v).mono ?_
  rintro _ m' ⟨hframes, zs, hholds, hbelow⟩
  refine ⟨zs, hholds, ?_, fun hlt => (Nat.lt_irrefl _ (hframes ▸ hlt)).elim⟩
  rw [List.take_append_of_le_length hbase]
  exact hbelow

/-- A value is pushed and nothing else happens. -/
theorem retains_push (h : m.Piled frames xs) (v : Value) :
    Yields (Exec.push v) m fun _ m' => m'.Retains 0 xs :=
  (h.push v).mono fun _ _ h' => ⟨xs, [v], [], h'.toHolds, (List.append_nil _).symm, Nat.le_refl _⟩

theorem constant (h : m.Piled frames xs) (op : Op) (index : Nat) :
    Yields (Exec.constant op index) m fun _ m' => m'.Piled frames xs := by
  intro v m' hx
  rw [Exec.constant_eq] at hx
  cases hfind : m.constants[index]? with
  | none => rw [hfind] at hx; cases hx
  | some w =>
    rw [hfind] at hx
    cases hx
    exact h

/-- **What an instruction retains**, if it neither sets a variable nor
returns. -/
theorem retains_execute (h : m.Piled frames xs) (hset : ∀ n, i ≠ .setLocal n)
    (hreturn : i ≠ .returnValue ∧ i ≠ .returnNull)
    (hxs : ∀ identity body captured, .closure identity body captured ∈ xs →
      body.params ≤ body.locals) :
    Yields (Exec.execute frame i) m fun _ m' => m'.Retains i.takes xs := by
  cases i with
  | constant index => exact (h.constant _ _).bind fun v m₁ h₁ => h₁.retains_push v
  | pop =>
    refine h.pop.bind ?_
    rintro v m₁ ⟨ys, rfl, h₁⟩
    exact Yields.of_eq_ok rfl (Holds.retains (h₁.toHolds.of_eq rfl rfl) (Nat.le_refl _))
  | add | sub | mul | div | equal | notEqual | greaterThan => exact h.binary _
  | pushTrue | pushFalse | pushNull | currentClosure => exact h.retains_push _
  | negate | bang => exact h.unary _
  | jumpNotTruthy target =>
    refine h.pop.bind ?_
    rintro v m₁ ⟨ys, rfl, h₁⟩
    split
    · exact Yields.of_eq_ok rfl (h₁.toHolds.retains (Nat.le_refl _))
    · exact Yields.of_eq_ok rfl (Holds.retains (h₁.toHolds.jumpTo _) (Nat.le_refl _))
  | jump target =>
    refine Yields.of_eq_ok rfl ?_
    exact ⟨xs, [], [], (List.append_nil xs).symm ▸ h.toHolds.jumpTo _, (List.append_nil xs).symm,
      Nat.le_refl _⟩
  | getGlobal index => exact h.retains_push _
  | setGlobal index =>
    refine h.pop.bind ?_
    rintro v m₁ ⟨ys, rfl, h₁⟩
    exact Yields.of_eq_ok rfl (Holds.retains (h₁.toHolds.of_eq rfl rfl) (Nat.le_refl _))
  | getLocal index =>
    refine (Machine.At.localSlot _ _).bind ?_
    rintro slot _ ⟨rfl, -⟩
    exact h.retains_push _
  | setLocal index => exact (hset index rfl).elim
  | getBuiltin index =>
    rw [Exec.execute]
    split
    · exact h.retains_push _
    · exact Yields.fail _
  | getFree index =>
    rw [Exec.execute]
    split
    · exact h.retains_push _
    · exact Yields.fail _
  | makeArray count =>
    refine (h.popMany _).bind ?_
    rintro vs m₁ ⟨ys, rfl, hlen, h₁⟩
    exact h₁.replace _ (Nat.le_of_eq hlen)
  | makeMap count =>
    refine (h.popMany _).bind ?_
    rintro vs m₁ ⟨ys, rfl, hlen, h₁⟩
    refine (Yields.ofExcept _).bind ?_
    rintro entries _ ⟨-, rfl⟩
    exact h₁.replace _ (Nat.le_of_eq hlen)
  | index =>
    refine h.pop.bind ?_
    rintro key m₁ ⟨ys, rfl, h₁⟩
    refine h₁.pop.bind ?_
    rintro container m₂ ⟨zs, rfl, h₂⟩
    refine (Yields.ofExcept _).bind ?_
    rintro v _ ⟨-, rfl⟩
    rw [List.append_assoc]
    exact h₂.replace v (Nat.le_refl _)
  | call count =>
    refine (h.call _ hxs).mono fun _ m' h' => ?_
    -- A builtin function has replaced what it took. A frame has been put on
    -- top, and nothing was taken: the arguments are its first variables.
    rcases h' with ⟨-, h'⟩ | ⟨_, _, h'⟩
    · exact h'
    · exact ⟨xs, _, [], h'.piled.toHolds, (List.append_nil _).symm, Nat.zero_le _⟩
  | returnValue => exact (hreturn.1 rfl).elim
  | returnNull => exact (hreturn.2 rfl).elim
  | makeClosure index captured =>
    refine (h.constant _ _).bind fun v m₁ h₁ => ?_
    split
    · refine (h₁.popMany _).bind ?_
      rintro vs m₂ ⟨ys, rfl, hlen, h₂⟩
      have hnext : ({ m₂ with nextIdentity := m₂.nextIdentity + 1 } : Machine).Piled frames ys :=
        h₂.of_eq rfl rfl h₂.frames
      exact hnext.replace _ (Nat.le_of_eq hlen)
    · exact Yields.fail _

/-- A variable of the frame is set to the topmost value. -/
theorem setLocal (h : m.Piled frames xs) {n : UInt8} (hfloor : frame.floor + 1 ≤ xs.length) :
    Yields (Exec.execute frame (.setLocal n)) m fun _ m' =>
      m'.Retains 1 ((Instruction.setLocal n).update frame.base xs) := by
  refine (Machine.At.localSlot _ _).bind ?_
  rintro slot _ ⟨rfl, rfl, hlocal⟩
  refine h.pop.bind ?_
  rintro v m₁ ⟨ys, rfl, h₁⟩
  have hlt : frame.base + n.toNat < ys.length := by
    rw [List.length_append] at hfloor
    exact Nat.lt_of_lt_of_le (Nat.add_lt_add_left hlocal _) (Nat.le_of_succ_le_succ hfloor)
  have hset := Exec.setSlot_of_lt (m := m₁) v hlt
  rw [h₁.eq] at hset
  refine Yields.of_eq_ok hset ⟨ys.set (frame.base + n.toNat) v, [], [v], ?_, ?_, Nat.le_refl _⟩
  · rw [List.append_nil]
    exact holds_withStack (List.length_set.symm ▸ h₁.room)
  · simp [Instruction.update, List.set_append_left _ _ hlt]

/-- **What an instruction leaves of the values on the stack.** -/
theorem execute (h : m.Piled (frame.past i :: callers) xs)
    (hfloor : frame.floor + i.takes ≤ xs.length)
    (hxs : ∀ identity body captured, .closure identity body captured ∈ xs →
      body.params ≤ body.locals) :
    Yields (Exec.execute frame i) m fun _ m' =>
      ∃ ys, m'.Leaves frame callers (i.update frame.base xs) ys := by
  have hbase : frame.base ≤ frame.floor := Nat.le_add_right ..
  by_cases hset : ∃ n, i = .setLocal n
  · obtain ⟨n, rfl⟩ := hset
    refine (h.setLocal hfloor).mono fun _ _ h' => h'.leaves ?_
    rw [Instruction.update, List.length_set]
    exact hfloor
  have hset' : ∀ n, i ≠ .setLocal n := fun n hn => hset ⟨n, hn⟩
  rw [Instruction.update_of_ne hset']
  by_cases hvalue : i = .returnValue
  · subst hvalue
    refine h.pop.bind ?_
    rintro v m₁ ⟨ys, rfl, h₁⟩
    rw [List.length_append] at hfloor
    have hfloor' : frame.floor ≤ ys.length := Nat.le_of_succ_le_succ hfloor
    exact h₁.leaves_returnWith v [v] (by omega)
  by_cases hnull : i = .returnNull
  · subst hnull
    have hreturn := h.leaves_returnWith .null [] (by omega)
    rwa [List.append_nil] at hreturn
  exact (h.retains_execute hset' ⟨hvalue, hnull⟩ hxs).mono fun _ _ h' => h'.leaves hfloor

end Machine.Piled

/-! ## Rounds -/

/-- The operands of an instruction are above the variables of its frame. -/
theorem Frame.Stands.takes_le {frame : Frame} {sp : Nat} {i : Instruction} (h : frame.Stands sp)
    (hi : frame.closure.body.code.decodeAt frame.ip = some (.ok i)) :
    frame.floor + i.takes ≤ sp := by
  obtain ⟨front, back, hcode, hsteady, hip, rfl⟩ := h.place
  rw [hcode, hip] at hi
  obtain ⟨rest, rfl⟩ := Instruction.eq_cons_of_decodeAt hi
  exact Nat.add_le_add_left hsteady.right.1 _

/-- **A round that executes an instruction** does what the instruction does. -/
theorem Exec.yields_step {m : Machine} {frame : Frame} {callers : List Frame} {i : Instruction}
    {Q : Machine → Prop} (hframes : m.frames = frame :: callers)
    (hi : frame.closure.body.code.decodeAt frame.ip = some (.ok i))
    (h : ∀ budget journal,
      Yields (execute frame i) (m.past frame callers i budget journal) fun _ => Q) :
    Yields step m fun _ => Q := by
  have hspend : Yields spend m fun _ m' => ∃ budget, m' = { m with budget } := by
    intro _ m' hx
    unfold spend at hx
    split at hx <;> cases hx
    · exact ⟨m.budget, rfl⟩
    · exact ⟨_, rfl⟩
  have hround : Yields (do
      spend
      advance frame callers i
      execute frame i
      pure true) m fun _ => Q := by
    refine hspend.bind ?_
    rintro _ _ ⟨budget, rfl⟩
    have hadvance : Yields (advance frame callers i) { m with budget } fun _ m' =>
        ∃ journal, m' = m.past frame callers i budget journal := Yields.of_eq_ok rfl ⟨_, rfl⟩
    refine hadvance.bind ?_
    rintro _ _ ⟨journal, rfl⟩
    exact (h budget journal).bind fun _ m' hm' => Yields.of_eq_ok rfl hm'
  intro running m' hx
  rw [step_of_frames hframes, hi] at hx
  exact hround running m' hx

namespace Machine.Piled

variable {frame : Frame} {callers : List Frame} {xs : List Value} {m : Machine} {i : Instruction}

/-- Going past an instruction leaves the stack as it is. -/
theorem past (h : m.Piled (frame :: callers) xs) (budget : Option Nat) (journal : Journal) :
    (m.past frame callers i budget journal).Piled (frame.past i :: callers) xs :=
  h.of_eq rfl rfl rfl

/-- **What a round leaves of the values on the stack.** -/
theorem step (h : m.Piled (frame :: callers) xs) (hframe : frame.Stands xs.length)
    (hxs : ∀ identity body captured, .closure identity body captured ∈ xs →
      body.params ≤ body.locals)
    (hi : frame.closure.body.code.decodeAt frame.ip = some (.ok i)) :
    Yields Exec.step m fun _ m' => ∃ ys, m'.Leaves frame callers (i.update frame.base xs) ys :=
  Exec.yields_step h.frames hi fun budget journal =>
    (h.past budget journal).execute (hframe.takes_le hi) hxs

/-- A round at the end of a function's code leaves what is below the
function. -/
theorem step_of_end (h : m.Piled (frame :: callers) xs) (hframe : frame.Stands xs.length)
    (hne : callers ≠ []) (hi : frame.closure.body.code.decodeAt frame.ip = none) :
    Yields Exec.step m fun _ m' => ∃ ys, m'.Leaves frame callers xs ys := by
  have hbase : frame.base - 1 ≤ xs.length := by
    have hsp := hframe.sp_eq
    unfold Frame.floor at hsp
    omega
  have hreturn : Yields (do Exec.returnWith .null; pure true) m fun _ m' =>
      ∃ ys, m'.Leaves frame callers (xs ++ []) ys :=
    (h.leaves_returnWith .null [] hbase).bind fun _ m₁ h₁ => Yields.of_eq_ok rfl h₁
  intro running m' hx
  rw [Exec.step_of_frames h.frames, hi] at hx
  dsimp only at hx
  rw [if_neg (by simpa using hne)] at hx
  rw [List.append_nil] at hreturn
  exact hreturn running m' hx

/-- A round that opens a frame adds nothing to the stack but null. -/
theorem step_of_call (h : m.Piled (frame :: callers) xs) {count : UInt8}
    (hxs : ∀ identity body captured, .closure identity body captured ∈ xs →
      body.params ≤ body.locals)
    (hi : frame.closure.body.code.decodeAt frame.ip = some (.ok (.call count))) :
    Yields Exec.step m fun _ m' => callers.length + 1 < m'.frames.length →
      ∃ closure base, m'.Entered closure base count.toNat (frame.past (.call count) :: callers)
        xs := by
  refine Exec.yields_step h.frames hi fun budget journal => ?_
  refine ((h.past budget journal).call count.toNat hxs).mono fun _ m' h' hlt => ?_
  rcases h' with ⟨hframes, -⟩ | h'
  · exact (Nat.lt_irrefl _ (hframes ▸ hlt)).elim
  · exact h'

end Machine.Piled

end StackScript
