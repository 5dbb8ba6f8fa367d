import StackScript.Proofs.Machine.Checked
import StackScript.Proofs.Machine.Globals

/-!
# Instructions look only at places that are there

`Machine.Fit` is what stays true of a machine, whatever it runs. From a fit
machine on, every instruction does the same as its checked counterpart and
leaves a fit machine, whether it halts or not. This is `Checked.Safe`, and such
statements are put together along a computation (`Safe.bind`).

Returns are the exception, and they are left out here.
-/

namespace StackScript

open Exec (bind_of_ok bind_of_error)

/-- **What stays true of a machine**, whatever it runs. -/
structure Machine.Fit (m : Machine) : Prop where
  /-- The stack has all its slots. -/
  stack : m.stack.size = stackSize
  /-- The stack pointer is within the stack. -/
  sp : m.sp ≤ stackSize
  /-- There are not too many frames. -/
  depth : m.frames.length ≤ maxFrames
  /-- There is a slot below every frame but the one of the top level. -/
  bases : ∀ frame ∈ m.frames.dropLast, 1 ≤ frame.base

/-- A fit machine with some frames. -/
structure Machine.FitAt (frames : List Frame) (m : Machine) : Prop extends m.Fit where
  /-- The frames. -/
  frames : m.frames = frames

theorem Exec.size_clear (stack : Array Value) (start count : Nat) :
    (Exec.clear stack start count).size = stack.size := by
  induction count generalizing stack start with
  | zero => rfl
  | succ count ih => rw [Exec.clear, ih, Array.size_setIfInBounds]

namespace Machine

variable {m : Machine} {frames : List Frame}

/-- A fit machine has the frames that it has. This names them, for the steps
below that leave them alone. -/
theorem Fit.at (h : m.Fit) : m.FitAt m.frames := ⟨h, rfl⟩

/-- Other slots and another stack pointer are fine, as long as the stack keeps
its size and the pointer stays within it. Every operation on the stack is of
this kind. -/
theorem FitAt.restack (h : m.FitAt frames) {stack : Array Value} {sp : Nat}
    (hstack : stack.size = m.stack.size) (hsp : sp ≤ stackSize) :
    { m with stack, sp }.FitAt frames :=
  { h with stack := hstack.trans h.stack, sp := hsp }

/-- A call makes a new frame. Its slots begin above the function that is called,
so that there is a slot below it. -/
theorem Fit.enters (h : m.Fit) {frame : Frame} {sp : Nat} (hbase : 1 ≤ frame.base)
    (hdepth : m.frames.length < maxFrames) (hsp : sp ≤ stackSize) :
    { m with sp, frames := frame :: m.frames }.Fit := by
  refine ⟨h.stack, hsp, hdepth, ?_⟩
  intro f hf
  cases hframes : m.frames with
  | nil =>
    rw [hframes] at hf
    cases hf
  | cons newest callers =>
    rw [hframes] at hf
    rcases List.mem_cons.1 hf with rfl | hf
    · exact hbase
    · exact h.bases f (hframes ▸ hf)

/-- The newest frame goes on elsewhere in its code. Neither its base nor the
frames below it change. -/
theorem FitAt.goesOn {frame : Frame} {callers : List Frame} (h : m.FitAt (frame :: callers))
    (ip : Nat) : { m with frames := { frame with ip } :: callers }.FitAt
      ({ frame with ip } :: callers) := by
  have hdepth := h.depth
  have hbases := h.bases
  rw [h.frames] at hdepth hbases
  refine ⟨⟨h.stack, h.sp, hdepth, ?_⟩, rfl⟩
  intro f hf
  cases callers with
  | nil => cases hf
  | cons caller callers =>
    rcases List.mem_cons.1 hf with rfl | hf
    · exact hbases frame List.mem_cons_self
    · exact hbases f (List.mem_cons_of_mem _ hf)

/-- The newest frame is gone. The frame of the top level stays the last one. -/
theorem FitAt.returns {frame : Frame} {callers : List Frame} (h : m.FitAt (frame :: callers)) :
    { m with frames := callers }.FitAt callers := by
  have hdepth := h.depth
  have hbases := h.bases
  rw [h.frames] at hdepth hbases
  refine ⟨⟨h.stack, h.sp, Nat.le_of_succ_le hdepth, ?_⟩, rfl⟩
  intro f hf
  cases callers with
  | nil => cases hf
  | cons caller callers => exact hbases f (List.mem_cons_of_mem _ hf)

end Machine

namespace Checked

open Machine (FitAt)

/-! ## Computations that look at no other places -/

/-- **A computation and its checked counterpart come to the same** from a
machine on: what they leave meets a condition, and they do not crash. -/
structure Safe {α : Type} (J : Machine → Prop) (c x : Exec α) (m : Machine) : Prop where
  /-- They come to the same. -/
  agrees : c m = x m
  /-- The condition holds afterwards, whether they halt or not. -/
  keeps : J (Exec.remains (x m))
  /-- They do not crash. -/
  calm : ∀ m', x m ≠ .error .crash m'

namespace Safe

variable {α β : Type} {I J : Machine → Prop} {c x : Exec α} {f g : α → Exec β} {m m' : Machine}

/-- Two computations that give the same value and leave the same machine, which
meets the condition. -/
theorem of_ok {a : α} (hc : c m = .ok a m') (hx : x m = .ok a m') (h : J m') : Safe J c x m := by
  refine ⟨hc.trans hx.symm, ?_, ?_⟩
  · rw [hx]
    exact h
  · rw [hx]
    exact nofun

/-- Two computations that end in the same run-time error before they have
changed anything. A run-time error is no crash. -/
theorem of_fail {e : RuntimeError} (hc : c m = .error (.error e) m)
    (hx : x m = .error (.error e) m) (h : J m) : Safe J c x m := by
  refine ⟨hc.trans hx.symm, ?_, ?_⟩
  · rw [hx]
    exact h
  · rw [hx]
    exact nofun

/-- To give a value is to look nowhere. -/
theorem pure (a : α) (h : J m) : Safe J (Pure.pure a) (Pure.pure a) m := of_ok rfl rfl h

theorem fail (e : RuntimeError) (h : J m) : Safe J (Exec.fail e : Exec α) (Exec.fail e) m :=
  of_fail rfl rfl h

theorem ofExcept (r : Except RuntimeError α) (h : J m) :
    Safe J (Exec.ofExcept r) (Exec.ofExcept r) m := by
  cases r with
  | ok a => exact pure a h
  | error e => exact fail e h

theorem of_modify {u : Machine → Machine} (h : J (u m)) : Safe J (modify u) (modify u) m :=
  of_ok rfl rfl h

/-- The condition may be made weaker. So instructions whose parts leave the
frames alone give fit machines in the end. -/
theorem mono (h : Safe I c x m) (hIJ : ∀ m, I m → J m) : Safe J c x m :=
  ⟨h.agrees, hIJ _ h.keeps, h.calm⟩

/-- **One computation follows another.** The second one may use what the first
has come to, and what holds of the machine it has left. -/
theorem bind (hx : Safe I c x m) (hIJ : ∀ m, I m → J m)
    (hf : ∀ a m', x m = .ok a m' → I m' → Safe J (f a) (g a) m') :
    Safe J (c >>= f) (x >>= g) m := by
  have hkeeps := hx.keeps
  cases hres : x m with
  | ok a m' =>
    rw [hres] at hkeeps
    have hnext := hf a m' hres hkeeps
    refine ⟨?_, ?_, ?_⟩
    · rw [bind_of_ok f (hx.agrees.trans hres), bind_of_ok g hres]
      exact hnext.agrees
    · rw [bind_of_ok g hres]
      exact hnext.keeps
    · rw [bind_of_ok g hres]
      exact hnext.calm
  | error e m' =>
    rw [hres] at hkeeps
    have hcalm := hx.calm
    rw [hres] at hcalm
    refine ⟨?_, ?_, ?_⟩
    · rw [bind_of_error f (hx.agrees.trans hres), bind_of_error g hres]
    · rw [bind_of_error g hres]
      exact hIJ m' hkeeps
    · rw [bind_of_error g hres]
      intro m'' heq
      cases heq
      exact hcalm m' rfl

/-- One computation follows another, with a condition that is kept all along. -/
theorem andThen (hx : Safe I c x m) (hf : ∀ a m', I m' → Safe I (f a) (g a) m') :
    Safe I (c >>= f) (x >>= g) m :=
  hx.bind (fun _ h => h) fun a m' _ h => hf a m' h

/-- The checked machine has looked something up beforehand, and found it. The
machine itself just takes what it needs. -/
theorem lookup {γ : Type} {b : Exec γ} {k : γ → Exec α} {a : γ} (hb : b m = .ok a m)
    (h : Safe J (k a) x m) : Safe J (b >>= k) x m := by
  refine ⟨?_, h.keeps, h.calm⟩
  rw [bind_of_ok k hb]
  exact h.agrees

/-- Both machines look at themselves. -/
theorem of_get {u v : Machine → Exec α} (h : Safe J (u m) (v m) m) :
    Safe J (get >>= u) (get >>= v) m := ⟨h.agrees, h.keeps, h.calm⟩

/-- Only the machine itself looks at itself, where the checked one has looked
something up. -/
theorem of_get_right {v : Machine → Exec α} (h : Safe J c (v m) m) : Safe J c (get >>= v) m :=
  ⟨h.agrees, h.keeps, h.calm⟩

end Safe

section

variable {m : Machine} {frames : List Frame}

/-! ## The stack -/

/-- A push is tested against the size of the stack, so the slot it writes to is
there. -/
theorem safe_push (h : m.FitAt frames) (v : Value) :
    Safe (FitAt frames) (push v) (Exec.push v) m := by
  by_cases hsp : m.sp < stackSize
  · have hset := setSlot_of_lt v (h.stack.symm ▸ hsp)
    refine .of_ok ?_ (by rw [Exec.push, if_pos hsp])
      (h.restack (Array.size_setIfInBounds ..) hsp)
    show (if m.sp < stackSize then _ else _ : Exec Unit) m = _
    rw [if_pos hsp, bind_of_ok _ hset]
    rfl
  · refine .of_fail ?_ (by rw [Exec.push, if_neg hsp]) h
    show (if m.sp < stackSize then _ else _ : Exec Unit) m = _
    rw [if_neg hsp]
    rfl

/-- A pop is tested against the bottom of the stack, and the slot below the
stack pointer of a fit machine is there. -/
theorem safe_pop (h : m.FitAt frames) : Safe (FitAt frames) pop Exec.pop m := by
  by_cases hsp : m.sp = 0
  · refine .of_fail ?_ (by rw [Exec.pop, if_pos hsp]) h
    show (if m.sp = 0 then _ else _ : Exec Value) m = _
    rw [if_pos hsp]
    rfl
  · have hlt : m.sp - 1 < m.stack.size := by
      have := h.sp
      rw [h.stack]
      omega
    refine .of_ok ?_ (by rw [Exec.pop, if_neg hsp])
      (h.restack (Array.size_setIfInBounds ..) (h.stack ▸ hlt.le))
    show (if m.sp = 0 then _ else _ : Exec Value) m = _
    rw [if_neg hsp, bind_of_ok _ (slot_of_lt hlt), bind_of_ok _ (setSlot_of_lt .null hlt)]
    rfl

/-- A range of values lies below the stack pointer, and so within the stack. -/
theorem safe_popMany (h : m.FitAt frames) (count : Nat) :
    Safe (FitAt frames) (popMany count) (Exec.popMany count) m := by
  by_cases hsp : m.sp < count
  · refine .of_fail ?_ (by rw [Exec.popMany, if_pos hsp]) h
    show (if m.sp < count then _ else _ : Exec (List Value)) m = _
    rw [if_pos hsp]
    rfl
  · have hle : m.sp - count ≤ m.sp := Nat.sub_le ..
    have hstop : m.sp ≤ m.stack.size := h.stack.symm ▸ h.sp
    refine .of_ok ?_ (by rw [Exec.popMany, if_neg hsp])
      (h.restack (Exec.size_clear ..) (hle.trans h.sp))
    show (if m.sp < count then _ else _ : Exec (List Value)) m = _
    rw [if_neg hsp, bind_of_ok _ (range_of_le hle hstop), bind_of_ok _ (clearRange_of_le hle hstop),
      Nat.sub_sub_self (Nat.not_lt.1 hsp)]
    rfl

/-- Slots are discarded within the stack, or there is a crash on both sides.
Only a return whose frame stands above the stack pointer comes to the latter. -/
theorem discardFrom_eq (h : m.Fit) (i : Nat) : discardFrom i m = Exec.discardFrom i m := by
  have hc : discardFrom i m =
      (clearRange i m.sp >>= fun _ => modify fun m => { m with sp := i } : Exec Unit) m := rfl
  by_cases hi : m.sp < i
  · rw [Exec.discardFrom, if_pos hi, hc, bind_of_error _ (clearRange_of_lt hi)]
  · rw [Exec.discardFrom, if_neg hi, hc,
      bind_of_ok _ (clearRange_of_le (Nat.not_lt.1 hi) (h.stack.symm ▸ h.sp))]
    rfl

/-- Slots at or below the stack pointer are discarded without a crash. -/
theorem safe_discardFrom (h : m.FitAt frames) {i : Nat} (hi : i ≤ m.sp) :
    Safe (FitAt frames) (discardFrom i) (Exec.discardFrom i) m := by
  have hx : Exec.discardFrom i m =
      .ok () { m with stack := Exec.clear m.stack i (m.sp - i), sp := i } := by
    rw [Exec.discardFrom, if_neg (Nat.not_lt.2 hi)]
  exact .of_ok ((discardFrom_eq h.toFit i).trans hx) hx
    (h.restack (Exec.size_clear ..) (hi.trans h.sp))

/-- A slot within the stack can be set. -/
theorem safe_setSlot (h : m.FitAt frames) {i : Nat} (hi : i < stackSize) (v : Value) :
    Safe (FitAt frames) (setSlot i v) (Exec.setSlot i v) m :=
  .of_ok (setSlot_of_lt v (h.stack.symm ▸ hi)) rfl (h.restack (Array.size_setIfInBounds ..) h.sp)

/-- The two operands are taken from the stack, and the result is put in their
place, which is within the stack. -/
theorem safe_binary (h : m.FitAt frames) (op : BinaryOp) :
    Safe (FitAt frames) (binary op) (Exec.binary op) m :=
  (safe_pop h).andThen fun _ _ h => (safe_pop h).andThen fun _ _ h =>
    (Safe.ofExcept _ h).andThen fun _ _ h => safe_push h _

theorem safe_unary (h : m.FitAt frames) (op : UnaryOp) :
    Safe (FitAt frames) (unary op) (Exec.unary op) m :=
  (safe_pop h).andThen fun _ _ h => (Safe.ofExcept _ h).andThen fun _ _ h => safe_push h _

/-- A new function takes a number of its own, and nothing but the stack is
looked at. -/
theorem safe_pushClosure (h : m.FitAt frames) (body : Routine) (captured : List Value) :
    Safe (FitAt frames) (pushClosure body captured) (Exec.pushClosure body captured) m := by
  refine Safe.andThen (I := FitAt frames) (.of_ok rfl rfl ?_) fun _ _ h => safe_push h _
  exact { h with }

/-- A constant that is not in the pool is a run-time error of both machines, so
neither looks outside of it. -/
theorem safe_constant (h : m.FitAt frames) (op : Op) (index : Nat) :
    Safe (FitAt frames) (do named (← get).constants op index) (Exec.constant op index) m := by
  have hx := Exec.constant_eq op index m
  cases hv : m.constants[index]? with
  | some v =>
    rw [hv] at hx
    exact .of_ok (named_of_some op m hv) hx h
  | none =>
    rw [hv] at hx
    exact .of_fail (named_of_none op m hv) hx h

/-- A variable of a frame stands below the stack pointer. The instruction is
refused otherwise, and this is why its slot is there. -/
theorem lt_sp_of_localSlot {newest : Frame} {op : Op} {index i : Nat} {m' : Machine}
    (h : Exec.localSlot newest op index m = .ok i m') : i < m'.sp := by
  have heq : Exec.localSlot newest op index m =
      (if newest.closure.body.locals ≤ index || m.sp ≤ newest.base + index then
        Exec.fail (.invalidOperand op index) else pure (newest.base + index) : Exec Nat) m := rfl
  rw [heq] at h
  split at h
  · cases h
  · next hin =>
    cases h
    simp only [Bool.or_eq_true, decide_eq_true_eq, not_or, Nat.not_le] at hin
    exact hin.2

/-- Where a variable of a frame stands is computed, with no look at the
stack. -/
theorem safe_localSlot (h : m.FitAt frames) (newest : Frame) (op : Op) (index : Nat) :
    Safe (FitAt frames) (Exec.localSlot newest op index) (Exec.localSlot newest op index) m := by
  refine Safe.of_get ?_
  split
  · exact .fail _ h
  · exact .pure _ h

/-! ## Calls -/

/-- A call tests the number of arguments, the number of frames and the room for
the variables. After these the machine has one more frame and is still fit. -/
theorem safe_enter (h : m.Fit) (closure : Closure) {base : Nat} (hbase : 1 ≤ base) (given : Nat) :
    Safe Machine.Fit (Exec.enter closure base given) (Exec.enter closure base given) m := by
  by_cases harity : given = closure.body.params
  · by_cases hfull : maxFrames ≤ m.frames.length ∨ stackSize < base + closure.body.locals
    · have hx := Exec.enter_of_full harity hfull
      exact .of_fail hx hx h
    · obtain ⟨hdepth, hroom⟩ := not_or.1 hfull
      have hx : Exec.enter closure base given m = .ok () { m with
          sp := base + closure.body.locals
          frames := ⟨closure, 0, base⟩ :: m.frames } := by
        rw [Exec.enter, if_neg (fun h => h harity), if_neg hdepth, if_neg hroom]
      exact .of_ok hx hx (h.enters hbase (Nat.not_le.1 hdepth) (Nat.not_lt.1 hroom))
  · have hx : Exec.enter closure base given m = _ := Exec.enter_of_arity harity
    exact .of_fail hx hx h

/-- A builtin function takes its arguments from the stack, between its own slot
and the stack pointer. -/
theorem safe_callBuiltin (h : m.FitAt frames) (b : Builtin) {callee : Nat}
    (hcallee : callee < m.sp) :
    Safe (FitAt frames) (callBuiltin b callee) (Exec.callBuiltin b callee) m := by
  refine .of_get (.lookup (range_of_le hcallee (h.stack.symm ▸ h.sp)) ?_)
  -- What was called stays below the stack pointer until it is discarded.
  have hI : m.FitAt frames ∧ callee ≤ m.sp := ⟨h, hcallee.le⟩
  refine (Safe.ofExcept (J := fun m => m.FitAt frames ∧ callee ≤ m.sp) _ hI).bind
    (fun _ => And.left)
    fun result m₁ _ h₁ => ?_
  refine (Safe.of_modify (J := fun m => m.FitAt frames ∧ callee ≤ m.sp) ⟨{ h₁.1 with }, h₁.2⟩).bind
    (fun _ => And.left) fun _ m₂ _ h₂ => ?_
  exact (safe_discardFrom h₂.1 h₂.2).andThen fun _ _ h => safe_push h result

/-- What is called stands below its arguments, which is tested. There are two
kinds of callees, and everything else is an error. -/
theorem safe_call (h : m.Fit) (count : Nat) :
    Safe Machine.Fit (call count) (Exec.call count) m := by
  refine .of_get ?_
  split
  · exact .fail _ h
  · next hsp =>
    have hcallee : m.sp - (count + 1) < m.sp := by omega
    refine .lookup (slot_of_lt (h.stack.symm ▸ hcallee.trans_le h.sp)) ?_
    dsimp only
    generalize m.slot (m.sp - (count + 1)) = callee
    cases callee with
    | closure => exact safe_enter h _ (Nat.succ_pos _) count
    | builtin b => exact (safe_callBuiltin h.at b hcallee).mono fun _ => FitAt.toFit
    | number | boolean | string | null | array | map | routine => exact .fail _ h

/-! ## Instructions -/

/-- A jump changes the newest frame, and there is one. -/
theorem safe_setIp {newest : Frame} {callers : List Frame} (h : m.FitAt (newest :: callers))
    (ip : Nat) : Safe Machine.Fit (setIp ip) (modify fun m => m.jumpTo ip) m := by
  have hx : (modify fun m => m.jumpTo ip : Exec Unit) m =
      .ok () { m with frames := { newest with ip } :: callers } := by
    show EStateM.Result.ok () (m.jumpTo ip) = _
    rw [Machine.jumpTo, h.frames]
  exact .of_ok (setIp_of_cons h.frames ip) hx (h.goesOn ip).toFit

/-- **An instruction that is no return looks only at places that are there.**
There is one case for each instruction, and each is put together from the
operations above. -/
theorem safe_execute {newest : Frame} {callers : List Frame} {i : Instruction}
    (h : m.FitAt (newest.past i :: callers)) (hvalue : i ≠ .returnValue) (hnull : i ≠ .returnNull) :
    Safe Machine.Fit (execute i) (Exec.execute newest i) m := by
  have hfit : ∀ m : Machine, m.FitAt (newest.past i :: callers) → m.Fit := fun _ => FitAt.toFit
  have hframe := frame_of_cons h.frames
  cases i with
  | returnValue => exact absurd rfl hvalue
  | returnNull => exact absurd rfl hnull
  | constant => exact ((safe_constant h _ _).andThen fun _ _ h => safe_push h _).mono hfit
  | pop => exact (safe_pop h).bind hfit fun _ _ _ h => .of_modify { h with }
  | add | sub | mul | div | equal | notEqual | greaterThan => exact (safe_binary h _).mono hfit
  | pushTrue | pushFalse | pushNull => exact (safe_push h _).mono hfit
  | negate | bang => exact (safe_unary h _).mono hfit
  | jumpNotTruthy target =>
    refine (safe_pop h).bind hfit fun v m' _ h => ?_
    cases v.truthy with
    | true => exact .pure () h.toFit
    | false => exact safe_setIp h _
  | jump target => exact safe_setIp h _
  | getGlobal => exact .of_get ((safe_push h _).mono hfit)
  | setGlobal => exact (safe_pop h).bind hfit fun _ _ _ h => .of_modify { h with }
  | getLocal index =>
    refine .lookup hframe ?_
    refine (safe_localSlot h _ _ _).bind hfit fun i m' hi h' => ?_
    have hlt := (lt_sp_of_localSlot hi).trans_le h'.sp
    exact .lookup (slot_of_lt (h'.stack.symm ▸ hlt)) (.of_get_right ((safe_push h' _).mono hfit))
  | setLocal index =>
    refine .lookup hframe ?_
    refine (safe_localSlot h _ _ _).bind hfit fun i m' hi h' => ?_
    have hlt := (lt_sp_of_localSlot hi).trans_le h'.sp
    exact ((safe_pop h').andThen fun v _ h => safe_setSlot h hlt v).mono hfit
  | getBuiltin index =>
    rw [execute, Exec.execute]
    cases Builtin.ofIndex? index.toNat with
    | some b => exact (safe_push h _).mono hfit
    | none => exact .fail _ h.toFit
  | getFree index =>
    refine .lookup hframe ?_
    rw [Exec.execute]
    have hcaptured : (newest.past (.getFree index)).closure.captured.toArray[index.toNat]? =
        newest.closure.captured[index.toNat]? := List.getElem?_toArray
    cases hv : newest.closure.captured[index.toNat]? with
    | some v =>
      exact .lookup (named_of_some .getFree m (hcaptured.trans hv)) ((safe_push h v).mono hfit)
    | none =>
      exact .of_fail (bind_of_error _ (named_of_none .getFree m (hcaptured.trans hv))) rfl h.toFit
  | currentClosure => exact .lookup hframe ((safe_push h _).mono hfit)
  | makeArray => exact ((safe_popMany h _).andThen fun _ _ h => safe_push h _).mono hfit
  | makeMap =>
    exact ((safe_popMany h _).andThen fun _ _ h => (Safe.ofExcept _ h).andThen fun _ _ h =>
      safe_push h _).mono hfit
  | index =>
    exact ((safe_pop h).andThen fun _ _ h => (safe_pop h).andThen fun _ _ h =>
      (Safe.ofExcept _ h).andThen fun _ _ h => safe_push h _).mono hfit
  | call => exact safe_call h.toFit _
  | makeClosure =>
    refine (safe_constant h _ _).bind hfit fun v m' _ h => ?_
    cases v with
    | routine body =>
      exact ((safe_popMany h _).andThen fun _ _ h => safe_pushClosure h _ _).mono hfit
    | number | boolean | string | null | array | map | closure | builtin => exact .fail _ h.toFit

end

end Checked

end StackScript
