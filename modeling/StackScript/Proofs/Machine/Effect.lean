import StackScript.Proofs.Code.Height
import StackScript.Proofs.Machine.Path
import StackScript.Proofs.Value.Bodies

/-!
# What a round does to the stack pointer and the frames

Whatever the values on the stack are, an instruction moves the stack pointer by
what it takes and leaves, and it goes on, jumps, calls or returns. `Executed`
lists these cases, and `Machine.At.execute` says that there are no others when
an instruction does not halt. Code need not be good for this: the lemmas hold of
all instructions and all machines.

The values are followed in one respect only: which routines the functions among
them run. A machine builds no routines, so that all functions it ever has run
routines that were there before.
-/

namespace StackScript

/-- **What holds after a computation that does not halt.** -/
def Exec.Yields {α : Type} (x : Exec α) (m : Machine) (Q : α → Machine → Prop) : Prop :=
  ∀ a m', x m = .ok a m' → Q a m'

namespace Exec.Yields

variable {α β : Type} {m : Machine} {x : Exec α} {Q R : α → Machine → Prop}

/-- A computation whose outcome is known yields what holds of this outcome. -/
theorem of_eq_ok {a : α} {m' : Machine} (h : x m = .ok a m') (hQ : Q a m') : Yields x m Q := by
  intro b m'' h'
  rw [h] at h'
  cases h'
  exact hQ

/-- What is yielded may be weakened. -/
theorem mono (h : Yields x m Q) (hQR : ∀ a m', Q a m' → R a m') : Yields x m R :=
  fun a m' hx => hQR a m' (h a m' hx)

/-- **One computation after another yields what the second does** on what the
first has left. If the first one halts there is nothing to show. -/
theorem bind {f : α → Exec β} {S : β → Machine → Prop} (hx : Yields x m Q)
    (hf : ∀ a m', Q a m' → Yields (f a) m' S) : Yields (x >>= f) m S := by
  intro b m'' h
  cases hres : x m with
  | ok a m' =>
    rw [Exec.bind_of_ok f hres] at h
    exact hf a m' (hx a m' hres) b m'' h
  | error e m' =>
    rw [Exec.bind_of_error f hres] at h
    cases h

/-- A failure yields anything: the statement is about computations that do not
halt. -/
theorem fail (e : RuntimeError) : Yields (Exec.fail e) m Q := nofun

/-- The result of an operation on values leaves the machine as it is. -/
theorem ofExcept (x : Except RuntimeError α) :
    Yields (Exec.ofExcept x) m fun a m' => x = .ok a ∧ m' = m := by
  cases x with
  | ok a => exact of_eq_ok rfl ⟨rfl, rfl⟩
  | error e => exact fail e

end Exec.Yields

open Exec (Yields)

/-! ## The slots of the stack -/

section

variable {P : Value → Prop} {xs : Array Value}

/-- A slot is set: what holds of all slots and of the new value holds of all
slots afterwards. The four lemmas after this one do the same for the other ways
to handle slots. -/
theorem forall_mem_setIfInBounds (h : ∀ v ∈ xs.toList, P v) (i : Nat) {v : Value} (hv : P v) :
    ∀ w ∈ (xs.setIfInBounds i v).toList, P w := by
  intro w hw
  rw [Array.toList_setIfInBounds] at hw
  rcases List.mem_or_eq_of_mem_set hw with hw | rfl
  · exact h w hw
  · exact hv

/-- Slots are made null. -/
theorem forall_mem_clear (h : ∀ v ∈ xs.toList, P v) (hnull : P .null) (start count : Nat) :
    ∀ w ∈ (Exec.clear xs start count).toList, P w := by
  induction count generalizing xs start with
  | zero => exact h
  | succ count ih => exact ih (forall_mem_setIfInBounds h start hnull) (start + 1)

/-- Slots are taken off the stack. -/
theorem forall_mem_extract (h : ∀ v ∈ xs.toList, P v) (start stop : Nat) :
    ∀ w ∈ (xs.extract start stop).toList, P w := by
  intro w hw
  rw [Array.toList_extract, List.extract_eq_take_drop] at hw
  exact h w (List.mem_of_mem_drop (List.mem_of_mem_take hw))

/-- A slot is read, which gives null where there is none. -/
theorem getD_of_forall_mem (h : ∀ v ∈ xs.toList, P v) (hnull : P .null) (i : Nat) :
    P (xs[i]?.getD .null) := by
  cases hi : xs[i]? with
  | none => exact hnull
  | some v => exact h v (Array.mem_toList_iff.2 (Array.mem_of_getElem? hi))

/-- A global is set. The slots before it that have never been set become
null. -/
theorem forall_mem_set_globals {g : Globals} (h : ∀ v ∈ g.slots.toList, P v) (hnull : P .null)
    (index : Nat) {v : Value} (hv : P v) : ∀ w ∈ (g.set index v).slots.toList, P w := by
  unfold Globals.set
  split
  · exact forall_mem_setIfInBounds h index hv
  · intro w hw
    rw [Array.toList_push, Array.toList_append, Array.toList_replicate] at hw
    rcases List.mem_append.1 hw with hw | hw
    · rcases List.mem_append.1 hw with hw | hw
      · exact h w hw
      · exact List.eq_of_mem_replicate hw ▸ hnull
    · exact List.mem_singleton.1 hw ▸ hv

end

/-- **A machine with these frames and this stack pointer**, all functions of
which run routines that meet a condition. -/
structure Machine.At (P : Routine → Prop) (frames : List Frame) (sp : Nat) (m : Machine) :
    Prop where
  /-- The frames. -/
  frames : m.frames = frames
  /-- The stack pointer. -/
  sp : m.sp = sp
  /-- The functions among the constants. -/
  constants : ∀ v ∈ m.constants.toList, v.Bodies P
  /-- The functions on the stack. -/
  stack : ∀ v ∈ m.stack.toList, v.Bodies P
  /-- The functions among the globals. -/
  globals : ∀ v ∈ m.globals.slots.toList, v.Bodies P

namespace Machine.At

variable {P : Routine → Prop} {frames : List Frame} {n : Nat} {m : Machine}

/-- What stands in a slot has no routines but those that meet the condition. -/
theorem slot (h : m.At P frames n) (i : Nat) : (m.slot i).Bodies P :=
  getD_of_forall_mem h.stack .null i

/-- A push that does not halt adds one to the stack pointer. -/
theorem push (h : m.At P frames n) {v : Value} (hv : v.Bodies P) :
    Yields (Exec.push v) m fun _ m' => m'.At P frames (n + 1) := by
  intro _ m' hx
  unfold Exec.push at hx
  split at hx
  · cases hx
    exact { h with sp := congrArg (· + 1) h.sp, stack := forall_mem_setIfInBounds h.stack _ hv }
  · cases hx

/-- A pop that does not halt has found a value, and takes one from the stack
pointer. -/
theorem pop (h : m.At P frames n) :
    Yields Exec.pop m fun v m' => 1 ≤ n ∧ v.Bodies P ∧ m'.At P frames (n - 1) := by
  intro v m' hx
  rw [Exec.pop, h.sp] at hx
  split at hx
  · cases hx
  · next hn =>
    cases hx
    refine ⟨Nat.one_le_iff_ne_zero.2 hn, h.slot _, ?_⟩
    exact { h with sp := rfl, stack := forall_mem_setIfInBounds h.stack _ .null }

/-- Values that are popped together were all there. -/
theorem popMany (h : m.At P frames n) (count : Nat) :
    Yields (Exec.popMany count) m fun vs m' =>
      count ≤ n ∧ (∀ v ∈ vs, v.Bodies P) ∧ m'.At P frames (n - count) := by
  intro vs m' hx
  rw [Exec.popMany, h.sp] at hx
  split at hx
  · cases hx
  · next hn =>
    cases hx
    refine ⟨Nat.not_lt.1 hn, forall_mem_extract h.stack _ _, ?_⟩
    exact { h with sp := rfl, stack := forall_mem_clear h.stack .null _ _ }

/-- Discarding slots sets the stack pointer, from wherever it was. -/
theorem discardFrom (h : m.At P frames n) (i : Nat) :
    Yields (Exec.discardFrom i) m fun _ m' => m'.At P frames i := by
  intro _ m' hx
  unfold Exec.discardFrom at hx
  split at hx
  · cases hx
  · cases hx
    exact { h with sp := rfl, stack := forall_mem_clear h.stack .null _ _ }

/-- Two operands become one result. -/
theorem binary (h : m.At P frames n) (op : BinaryOp) :
    Yields (Exec.binary op) m fun _ m' => 2 ≤ n ∧ m'.At P frames (n - 2 + 1) := by
  refine h.pop.bind fun right m₁ ⟨h₁, hright, hm₁⟩ => ?_
  refine hm₁.pop.bind fun left m₂ ⟨h₂, hleft, hm₂⟩ => ?_
  refine (Yields.ofExcept _).bind ?_
  rintro v _ ⟨hv, rfl⟩
  exact (hm₂.push (hleft.binary op hright hv)).mono fun _ _ hm => ⟨by omega, hm⟩

/-- One operand becomes one result. -/
theorem unary (h : m.At P frames n) (op : UnaryOp) :
    Yields (Exec.unary op) m fun _ m' => 1 ≤ n ∧ m'.At P frames (n - 1 + 1) := by
  refine h.pop.bind fun operand m₁ ⟨h₁, hoperand, hm₁⟩ => ?_
  refine (Yields.ofExcept _).bind ?_
  rintro v _ ⟨hv, rfl⟩
  exact (hm₁.push (hoperand.unary op hv)).mono fun _ _ hm => ⟨h₁, hm⟩

/-! ## Calls and returns -/

/-- A call of a closure puts a new frame in front, with room for the variables
of its body above its base. -/
theorem enter (h : m.At P frames n) {closure : Closure} (base given : Nat) :
    Yields (Exec.enter closure base given) m fun _ m' =>
      m'.At P (⟨closure, 0, base⟩ :: frames) (base + closure.body.locals) := by
  intro _ m' hx
  unfold Exec.enter at hx
  split at hx
  · cases hx
  split at hx
  · cases hx
  split at hx
  · cases hx
  · cases hx
    exact { h with frames := congrArg (_ :: ·) h.frames, sp := rfl }

/-- A call of a builtin function leaves one value in place of the callee. Its
result has no routines but those of its arguments. -/
theorem callBuiltin (h : m.At P frames n) (b : Builtin) (callee : Nat) :
    Yields (Exec.callBuiltin b callee) m fun _ m' => m'.At P frames (callee + 1) := by
  show Yields (do
    let result ← Exec.ofExcept (b.call (m.stack.extract (callee + 1) m.sp).toList)
    modify fun m₁ => { m₁ with
      output := m₁.output ++ b.output (m.stack.extract (callee + 1) m.sp).toList }
    Exec.discardFrom callee
    Exec.push result) m _
  refine (Yields.ofExcept _).bind ?_
  rintro v m₁ ⟨hv, rfl⟩
  have hresult := Value.Bodies.call b (forall_mem_extract h.stack _ _) hv
  have hwritten : ∀ output, ({ m₁ with output } : Machine).At P frames n := fun _ => { h with }
  exact ((hwritten _).discardFrom callee).bind fun _ m₂ hm₂ => hm₂.push hresult

/-- **A call** of a builtin function replaces it by its result; a call of a
closure opens a frame. -/
theorem call (h : m.At P frames n) (count : Nat) :
    Yields (Exec.call count) m fun _ m' => count + 1 ≤ n ∧
      (m'.At P frames (n - (count + 1) + 1) ∨
        ∃ closure : Closure, closure.value.Bodies P ∧
          m'.At P (⟨closure, 0, n - (count + 1) + 1⟩ :: frames)
            (n - (count + 1) + 1 + closure.body.locals)) := by
  intro _ m' hx
  have hcallee := h.slot (n - (count + 1))
  rw [Exec.call_eq, h.sp] at hx
  split at hx
  · cases hx
  · next hn =>
    refine ⟨Nat.not_lt.1 hn, ?_⟩
    -- Of the values on the stack, only the one below the arguments decides what happens.
    generalize m.slot (n - (count + 1)) = callee at hcallee hx
    cases callee with
    | closure identity body captured =>
      exact .inr ⟨⟨identity, body, captured⟩, hcallee, h.enter _ _ _ _ hx⟩
    | builtin b => exact .inl (h.callBuiltin b _ _ _ hx)
    | _ => cases hx

/-- **A return** closes the newest frame, and leaves its result in the slot
below the frame. -/
theorem returnWith {frame caller : Frame} {callers : List Frame}
    (h : m.At P (frame :: caller :: callers) n) {v : Value} (hv : v.Bodies P) :
    Yields (Exec.returnWith v) m fun _ m' => m'.At P (caller :: callers) (frame.base - 1 + 1) := by
  intro a m' hx
  rw [Exec.returnWith_eq, h.frames] at hx
  have hclosed : ({ m with frames := caller :: callers } : Machine).At P (caller :: callers) n :=
    { h with frames := rfl }
  exact (hclosed.discardFrom (frame.base - 1)).bind (fun _ m₁ hm₁ => hm₁.push hv) a m' hx

end Machine.At

/-! ## Instructions -/

/-- The frame past an instruction. -/
def Frame.past (frame : Frame) (i : Instruction) : Frame := { frame with ip := frame.ip + i.size }

/-- **What an instruction of a frame may do** at a stack pointer, if it does not
halt. -/
inductive Executed (P : Routine → Prop) (frame : Frame) (callers : List Frame) (i : Instruction)
    (n : Nat) (m : Machine) : Prop where
  /-- The frame goes on. -/
  | next : (∀ t, i ≠ .jump t) → i.takes ≤ n →
      m.At P (frame.past i :: callers) (n - i.takes + i.leaves) → Executed P frame callers i n m
  /-- The frame goes on at the target of a jump. -/
  | jump {t : UInt16} : i.target? = some t → i.takes ≤ n →
      m.At P ({ frame with ip := t.toNat } :: callers) (n - i.takes) →
      Executed P frame callers i n m
  /-- A closure is called. -/
  | enter {closure : Closure} {count : UInt8} : i = .call count → i.takes ≤ n →
      closure.value.Bodies P →
      m.At P (⟨closure, 0, n - i.takes + 1⟩ :: frame.past i :: callers)
        (n - i.takes + 1 + closure.body.locals) →
      Executed P frame callers i n m
  /-- The frame returns. -/
  | back : i = .returnValue ∨ i = .returnNull → callers ≠ [] → m.At P callers (frame.base - 1 + 1) →
      Executed P frame callers i n m
  /-- The top level returns. -/
  | ended {sp : Nat} : callers = [] → m.At P [] sp → Executed P frame callers i n m

namespace Machine.At

variable {P : Routine → Prop} {frames callers : List Frame} {frame : Frame} {i : Instruction}
  {n : Nat} {m : Machine}

/-- A constant is looked up in the pool, which belongs to what meets the
condition from the beginning. -/
theorem constant (h : m.At P frames n) (op : Op) (index : Nat) :
    Yields (Exec.constant op index) m fun v m' => v.Bodies P ∧ m' = m := by
  intro v m' hx
  rw [Exec.constant_eq] at hx
  cases hfind : m.constants[index]? with
  | none => rw [hfind] at hx; cases hx
  | some w =>
    rw [hfind] at hx
    cases hx
    exact ⟨h.constants _ (Array.mem_toList_iff.2 (Array.mem_of_getElem? hfind)), rfl⟩

/-- The slot of a variable is known, and its index is one that the body
declares. -/
theorem localSlot (op : Op) (index : Nat) :
    Yields (Exec.localSlot frame op index) m fun slot m' =>
      m' = m ∧ slot = frame.base + index ∧ index < frame.closure.body.locals := by
  intro slot m' hx
  have hx : (if frame.closure.body.locals ≤ index || m.sp ≤ frame.base + index then
      Exec.fail (.invalidOperand op index) else pure (frame.base + index) : Exec Nat) m =
      .ok slot m' := hx
  split at hx
  · cases hx
  · next hin =>
    cases hx
    simp only [Bool.or_eq_true, decide_eq_true_eq, not_or, Nat.not_le] at hin
    exact ⟨rfl, rfl, hin.1⟩

/-- A jump leads the newest frame to its target. -/
theorem jumpTo (h : m.At P (frame :: callers) n) (ip : Nat) :
    (m.jumpTo ip).At P ({ frame with ip } :: callers) n := by
  rw [Machine.jumpTo, h.frames]
  exact { h with frames := rfl }

/-- A return leads to the caller, or to the end of the run. -/
theorem executed_return (h : m.At P (frame.past i :: callers) n)
    (hi : i = .returnValue ∨ i = .returnNull) {v : Value} (hv : v.Bodies P) {n' : Nat} :
    Yields (Exec.returnWith v) m fun _ m' => Executed P frame callers i n' m' := by
  cases callers with
  | nil =>
    intro _ m' hx
    rw [Exec.returnWith_eq, h.frames] at hx
    cases hx
    exact .ended rfl { h with frames := rfl }
  | cons caller callers =>
    exact (h.returnWith hv).mono fun _ _ hm => .back hi (List.cons_ne_nil _ _) hm

/-- **An instruction that does not halt does one of the things it may do.** What
the frame runs is a value only for an instruction that makes it one. -/
theorem execute (h : m.At P (frame.past i :: callers) n)
    (hcaptured : ∀ v ∈ frame.closure.captured, v.Bodies P)
    (hitself : i = .currentClosure → frame.closure.value.Bodies P) :
    Yields (Exec.execute frame i) m fun _ m' => Executed P frame callers i n m' := by
  cases i with
  | constant index =>
    refine (h.constant _ _).bind ?_
    rintro v _ ⟨hv, rfl⟩
    exact (h.push hv).mono fun _ _ hm => .next nofun (Nat.zero_le _) hm
  | pop =>
    refine h.pop.bind fun v m₁ ⟨hn, hv, hm₁⟩ => Yields.of_eq_ok rfl ?_
    exact .next nofun hn { hm₁ with }
  | add | sub | mul | div | equal | notEqual | greaterThan =>
    exact (h.binary _).mono fun _ _ ⟨hn, hm⟩ => .next nofun hn hm
  | pushTrue | pushFalse =>
    exact (h.push (.boolean _)).mono fun _ _ hm => .next nofun (Nat.zero_le _) hm
  | pushNull => exact (h.push .null).mono fun _ _ hm => .next nofun (Nat.zero_le _) hm
  | negate | bang => exact (h.unary _).mono fun _ _ ⟨hn, hm⟩ => .next nofun hn hm
  | jumpNotTruthy target =>
    refine h.pop.bind fun v m₁ ⟨hn, hv, hm₁⟩ => ?_
    split
    · exact Yields.of_eq_ok rfl (.next nofun hn hm₁)
    · exact Yields.of_eq_ok rfl (.jump rfl hn (hm₁.jumpTo _))
  | jump target => exact Yields.of_eq_ok rfl (.jump rfl (Nat.zero_le _) (h.jumpTo _))
  | getGlobal index =>
    -- A global that was never set is null.
    have hv := getD_of_forall_mem h.globals .null index.toNat
    exact (h.push hv).mono fun _ _ hm => .next nofun (Nat.zero_le _) hm
  | setGlobal index =>
    refine h.pop.bind fun v m₁ ⟨hn, hv, hm₁⟩ => Yields.of_eq_ok rfl ?_
    exact .next nofun hn { hm₁ with globals := forall_mem_set_globals hm₁.globals .null _ hv }
  | getLocal index =>
    refine (localSlot _ _).bind ?_
    rintro slot _ ⟨rfl, -⟩
    exact (h.push (h.slot slot)).mono fun _ _ hm => .next nofun (Nat.zero_le _) hm
  | setLocal index =>
    refine (localSlot _ _).bind ?_
    rintro slot _ ⟨rfl, -⟩
    refine h.pop.bind fun v m₁ ⟨hn, hv, hm₁⟩ => Yields.of_eq_ok rfl ?_
    exact .next nofun hn { hm₁ with stack := forall_mem_setIfInBounds hm₁.stack slot hv }
  | getBuiltin index =>
    rw [Exec.execute]
    split
    · exact (h.push (.builtin _)).mono fun _ _ hm => .next nofun (Nat.zero_le _) hm
    · exact Yields.fail _
  | getFree index =>
    rw [Exec.execute]
    split
    · next v hv =>
      exact (h.push (hcaptured v (List.mem_of_getElem? hv))).mono fun _ _ hm =>
        .next nofun (Nat.zero_le _) hm
    · exact Yields.fail _
  | currentClosure =>
    exact (h.push (hitself rfl)).mono fun _ _ hm => .next nofun (Nat.zero_le _) hm
  | makeArray count =>
    refine (h.popMany _).bind fun vs m₁ ⟨hn, hvs, hm₁⟩ => ?_
    exact (hm₁.push (.array hvs)).mono fun _ _ hm => .next nofun hn hm
  | makeMap count =>
    refine (h.popMany _).bind fun vs m₁ ⟨hn, hvs, hm₁⟩ => ?_
    refine (Yields.ofExcept _).bind ?_
    rintro entries _ ⟨hentries, rfl⟩
    exact (hm₁.push (.insertAll hvs hentries)).mono fun _ _ hm => .next nofun hn hm
  | index =>
    refine h.pop.bind fun key m₁ ⟨h₁, hkey, hm₁⟩ => ?_
    refine hm₁.pop.bind fun container m₂ ⟨h₂, hcontainer, hm₂⟩ => ?_
    refine (Yields.ofExcept _).bind ?_
    rintro v _ ⟨hv, rfl⟩
    have hn : 2 ≤ n := by omega
    exact (hm₂.push (hcontainer.lookup hkey hv)).mono fun _ _ hm => .next nofun hn hm
  | call count =>
    refine (h.call count.toNat).mono fun _ m' ⟨hn, hm⟩ => ?_
    rcases hm with hm | ⟨closure, hclosure, hm⟩
    · exact .next nofun hn hm
    · exact .enter rfl hn hclosure hm
  | returnValue => exact h.pop.bind fun v m₁ ⟨_, hv, hm₁⟩ => hm₁.executed_return (.inl rfl) hv
  | returnNull => exact h.executed_return (.inr rfl) .null
  | makeClosure index captured =>
    refine (h.constant _ _).bind ?_
    rintro v _ ⟨hv, rfl⟩
    -- Only a routine makes a closure; any other constant is an error.
    cases hv with
    | routine hbody =>
      refine (h.popMany _).bind fun vs m₁ ⟨hn, hvs, hm₁⟩ => ?_
      have hnext : ({ m₁ with nextIdentity := m₁.nextIdentity + 1 } : Machine).At P
          (frame.past (.makeClosure index captured) :: callers) (n - captured.toNat) := { hm₁ with }
      exact (hnext.push (.closure hbody hvs)).mono fun _ _ hm => .next nofun hn hm
    | _ => exact Yields.fail _

/-- The budget has no part in this. -/
theorem spend (h : m.At P frames n) : Yields Exec.spend m fun _ m' => m'.At P frames n := by
  intro _ m' hx
  unfold Exec.spend at hx
  split at hx
  · cases hx
    exact h
  · cases hx
  · cases hx
    exact { h with }

/-- **A round of a machine that has a frame** ends the run and changes nothing,
or returns at the end of a function's code, or executes an instruction. -/
theorem round (h : m.At P (frame :: callers) n)
    (hcaptured : ∀ v ∈ frame.closure.captured, v.Bodies P)
    (hitself : frame.closure.body.code.decodeAt frame.ip = some (.ok .currentClosure) →
      frame.closure.value.Bodies P) :
    Yields Exec.step m fun running m' => (running = false ∧ m' = m) ∨
      (callers ≠ [] ∧ frame.closure.body.code.decodeAt frame.ip = none ∧
        m'.At P callers (frame.base - 1 + 1)) ∨
      ∃ i, frame.closure.body.code.decodeAt frame.ip = some (.ok i) ∧
        Executed P frame callers i n m' := by
  intro running m' hx
  rw [Exec.step_of_frames h.frames] at hx
  cases hdecode : frame.closure.body.code.decodeAt frame.ip with
  | none =>
    rw [hdecode] at hx
    cases callers with
    | nil => cases hx; exact .inl ⟨rfl, rfl⟩
    | cons caller callers =>
      have hreturn : Yields (do Exec.returnWith .null; pure true) m fun _ m' =>
          m'.At P (caller :: callers) (frame.base - 1 + 1) :=
        (h.returnWith .null).bind fun _ m₁ hm₁ => Yields.of_eq_ok rfl hm₁
      exact .inr (.inl ⟨List.cons_ne_nil _ _, rfl, hreturn _ _ hx⟩)
  | some result =>
    rw [hdecode] at hx
    cases result with
    | error cause => cases hx
    | ok i =>
      have hadvance : ∀ m₁ : Machine, m₁.At P (frame :: callers) n →
          Yields (Exec.advance frame callers i) m₁ fun _ m' =>
            m'.At P (frame.past i :: callers) n :=
        fun m₁ hm₁ => Yields.of_eq_ok rfl { hm₁ with frames := rfl }
      have hround : Yields (do
          Exec.spend
          Exec.advance frame callers i
          Exec.execute frame i
          pure true) m fun _ m' => Executed P frame callers i n m' := by
        refine h.spend.bind fun _ m₁ hm₁ => ?_
        refine (hadvance m₁ hm₁).bind fun _ m₂ hm₂ => ?_
        have hexecute := hm₂.execute hcaptured fun hi => hitself (by rw [hdecode, hi])
        exact hexecute.bind fun _ m₃ hm₃ => Yields.of_eq_ok rfl hm₃
      exact .inr (.inr ⟨i, rfl, hround _ _ hx⟩)

/-- **A round ends in one of three ways**: the program is over, the body of a
function is left at its end, or the instruction at hand has done one of the
things it may do. -/
theorem step (h : m.At P (frame :: callers) n) (hframe : frame.closure.value.Bodies P) :
    Yields Exec.step m fun _ m' => m' = m ∨
      (callers ≠ [] ∧ m'.At P callers (frame.base - 1 + 1)) ∨
      ∃ i, frame.closure.body.code.decodeAt frame.ip = some (.ok i) ∧
        Executed P frame callers i n m' := by
  have hcaptured : ∀ v ∈ frame.closure.captured, v.Bodies P := by
    cases hframe with
    | closure _ hcaptured => exact hcaptured
  refine (h.round hcaptured fun _ => hframe).mono fun _ _ hm => ?_
  exact hm.imp And.right (Or.imp_left fun hend => ⟨hend.1, hend.2.2⟩)

end Machine.At

end StackScript
