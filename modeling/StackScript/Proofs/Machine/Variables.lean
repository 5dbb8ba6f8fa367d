import StackScript.Proofs.Compiler.Assignments
import StackScript.Proofs.Machine.Globals
import StackScript.Proofs.Machine.Slots

/-!
# Who sets a variable

The variables of a function live as long as the frame that was opened for a call
of it. Only the code of that frame sets them, only while no other frame is above
it, and each of them in one place; the same is true of the globals that a
program binds, and of the frame of the top level. So the value of a variable is
known from what the frame has executed: it is null until the frame has come to
the place that sets it (`Machine.Unset`), and from then on it is what was on top
of the stack there.

`Stays` is a run during which a frame does not return, however often it calls
others. Main statements: a variable keeps its value in such a run unless the
frame sets it (`Stays.value_eq`), and then it has the value that it was set to
at the end of the run, too (`Stays.value_eq_of_assigns`).
-/

namespace StackScript

open Exec (Yields)
open Instruction (encodeAll sizeAll setsAll sets?)

/-! ## Places in code -/

namespace Frame.Stands

variable {frame : Frame} {sp : Nat} {i : Instruction}

/-- What a frame has before it is the beginning of its code. -/
theorem upTo_begins (h : frame.Stands sp) {is : List Instruction}
    (hcode : frame.closure.body.code = (encodeAll is).toArray) :
    frame.closure.body.code.upTo frame.ip <+: is := by
  obtain ⟨front, back, hcode', -, hip, -⟩ := h.place
  rw [hcode', hip, Code.upTo_encodeAll, Instruction.eq_of_encodeAll (hcode.symm.trans hcode')]
  exact List.prefix_append _ _

/-- What a frame has before it once it is past an instruction. -/
theorem upTo_past (h : frame.Stands sp)
    (hi : frame.closure.body.code.decodeAt frame.ip = some (.ok i)) :
    frame.closure.body.code.upTo (frame.past i).ip =
      frame.closure.body.code.upTo frame.ip ++ [i] := by
  obtain ⟨front, back, hcode, -, hip, -⟩ := h.place
  rw [hcode, hip] at hi
  obtain ⟨rest, rfl⟩ := Instruction.eq_cons_of_decodeAt hi
  have hsize : frame.ip + i.size = sizeAll (front ++ [i]) := by
    rw [Instruction.sizeAll_append, hip]
    rfl
  have hpast := Code.upTo_encodeAll (front ++ [i]) rest
  rw [List.append_assoc, List.singleton_append] at hpast
  rw [Frame.past, hcode, hsize, hpast, hip, Code.upTo_encodeAll]

/-- What a frame has before it once it has jumped: also all that it has jumped
over. -/
theorem upTo_target (h : frame.Stands sp)
    (hi : frame.closure.body.code.decodeAt frame.ip = some (.ok i)) {t : UInt16}
    (ht : i.target? = some t) : ∃ mid, frame.closure.body.code.upTo t.toNat =
      frame.closure.body.code.upTo frame.ip ++ i :: mid := by
  obtain ⟨front, back, hcode, hsteady, hip, -⟩ := h.place
  rw [hcode, hip] at hi
  obtain ⟨rest, rfl⟩ := Instruction.eq_cons_of_decodeAt hi
  obtain ⟨mid, rest', heq, -, hoffset, -⟩ := hsteady.target ht
  refine ⟨mid, ?_⟩
  rw [hcode, hoffset, Nat.zero_add, hip, Code.upTo_encodeAll, heq, Code.upTo_encodeAll]

end Frame.Stands

/-! ## Values of variables -/

/-- **The value of a variable**, seen from a frame that begins at some slot. -/
def Machine.value (m : Machine) (base : Nat) : Variable → Value
  | .global n => m.globals.get n
  | .frame n => m.slot (base + n)

namespace Frame

/-- A variable that a frame can see: a global, or one of its own. -/
def Has (frame : Frame) : Variable → Prop
  | .global _ => True
  | .frame n => n < frame.closure.body.locals

/-- **A variable that no other frame than this one sets**: a variable of its own
that is no parameter, or, if it is the frame of the top level, a global that was
not there before. -/
def Owns (bound : Nat) (frame : Frame) (callers : List Frame) : Variable → Prop
  | .global n => callers = [] ∧ bound ≤ n
  | .frame n => frame.closure.body.params ≤ n ∧ n < frame.closure.body.locals

theorem Owns.has {bound : Nat} {frame : Frame} {callers : List Frame} {x : Variable}
    (h : frame.Owns bound callers x) : frame.Has x := by
  cases x with
  | global n => trivial
  | frame n => exact h.2

/-- **The frame of the top level.** -/
structure IsMain (bound : Nat) (frame : Frame) : Prop where
  /-- It has captured nothing. -/
  captured : frame.closure.captured = []
  /-- It never makes a value of itself, and it sets globals only. -/
  sets : ∃ is, frame.closure.body.code = (encodeAll is).toArray ∧ .currentClosure ∉ is ∧
    (setsAll is).Nodup ∧ ∀ x ∈ setsAll is, ∃ n, bound ≤ n ∧ x = .global n

end Frame

/-- **Frames each of which has variables of its own**: the oldest is that of the
top level, all others are of functions, and none begins before the variables of
its caller end. -/
inductive Ordered (bound : Nat) : List Frame → Prop where
  | none : Ordered bound []
  | main {frame : Frame} : frame.IsMain bound → Ordered bound [frame]
  | call {frame caller : Frame} {callers : List Frame} : frame.closure.value.Bodies Routine.Tidy →
      caller.floor < frame.base → Ordered bound (caller :: callers) →
      Ordered bound (frame :: caller :: callers)

namespace Ordered

variable {bound : Nat} {frame newest : Frame} {callers front : List Frame}

/-- The frames below are in order too. -/
theorem tail (h : Ordered bound (frame :: callers)) : Ordered bound callers := by
  cases h with
  | main => exact .none
  | call _ _ h => exact h

/-- A frame goes on elsewhere in its code. -/
theorem move (h : Ordered bound (frame :: callers)) (ip : Nat) :
    Ordered bound ({ frame with ip } :: callers) := by
  cases h with
  | main h => exact .main ⟨h.captured, h.sets⟩
  | call hbody hfloor h => exact .call hbody hfloor h

/-- Whatever is above a frame is above its variables. -/
theorem floor_lt (h : Ordered bound (newest :: (front ++ frame :: callers))) :
    frame.floor < newest.base := by
  induction front generalizing newest with
  | nil =>
    cases h with
    | call _ hfloor => exact hfloor
  | cons next front ih =>
    cases h with
    | call _ hfloor h =>
      calc frame.floor < next.base := ih h
        _ ≤ next.floor := Nat.le_add_right ..
        _ < newest.base := hfloor

/-- What a function has captured runs tidy code. -/
theorem captured (h : Ordered bound (frame :: callers)) :
    ∀ v ∈ frame.closure.captured, v.Bodies Routine.Tidy := by
  cases h with
  | main h => exact fun v hv => (List.not_mem_nil (h.captured ▸ hv)).elim
  | call hbody =>
    cases hbody with
    | closure _ hcaptured => exact hcaptured

/-- **What a frame sets, it owns**, and it sets nothing in two places. -/
theorem owns (h : Ordered bound (frame :: callers)) :
    ∃ is, frame.closure.body.code = (encodeAll is).toArray ∧ (setsAll is).Nodup ∧
      ∀ x ∈ setsAll is, frame.Owns bound callers x := by
  cases h with
  | main h =>
    obtain ⟨is, hcode, -, hnodup, hglobal⟩ := h.sets
    refine ⟨is, hcode, hnodup, fun x hx => ?_⟩
    obtain ⟨n, hn, rfl⟩ := hglobal x hx
    exact ⟨rfl, hn⟩
  | call hbody =>
    cases hbody with
    | closure hbody =>
      obtain ⟨is, hcode, hnodup, hframe⟩ := hbody.sets
      refine ⟨is, hcode, hnodup, fun x hx => ?_⟩
      obtain ⟨n, hle, hlt, rfl⟩ := hframe x hx
      exact ⟨hle, hlt⟩

variable {sp : Nat} {i : Instruction}

/-- A frame that makes a value of itself is that of a function. -/
theorem bodies (h : Ordered bound (frame :: callers)) (hframe : frame.Stands sp)
    (hi : frame.closure.body.code.decodeAt frame.ip = some (.ok .currentClosure)) :
    frame.closure.value.Bodies Routine.Tidy := by
  cases h with
  | call hbody => exact hbody
  | main h =>
    obtain ⟨is, hcode, hnot, -⟩ := h.sets
    have hbegin := (hframe.next hi nofun).upTo_begins hcode
    rw [show (frame.past .currentClosure).closure = frame.closure from rfl, hframe.upTo_past hi]
      at hbegin
    exact (hnot (hbegin.subset (List.mem_append_right _ (List.mem_singleton_self _)))).elim

/-- The instruction that a frame is about to execute sets nothing that the frame
does not own, and nothing that it has already passed. -/
theorem owns_of_sets? (h : Ordered bound (frame :: callers)) (hframe : frame.Stands sp)
    (hi : frame.closure.body.code.decodeAt frame.ip = some (.ok i)) {x : Variable}
    (hx : i.sets? = some x) :
    frame.Owns bound callers x ∧ x ∉ setsAll (frame.closure.body.code.upTo frame.ip) := by
  obtain ⟨is, hcode, hnodup, howns⟩ := h.owns
  have hjump : ∀ t, i ≠ .jump t := by
    rintro t rfl
    cases hx
  have hbegin := (hframe.next hi hjump).upTo_begins hcode
  rw [show (frame.past i).closure = frame.closure from rfl, hframe.upTo_past hi] at hbegin
  obtain ⟨back, rfl⟩ := hbegin
  have hsingle : setsAll [i] = [x] := List.filterMap_cons_some hx
  rw [Instruction.setsAll_append, Instruction.setsAll_append, hsingle] at hnodup howns
  refine ⟨howns x (by simp), fun hmem => ?_⟩
  exact List.disjoint_of_nodup_append (List.Nodup.of_append_left hnodup) hmem
    (List.mem_singleton_self _)

end Ordered

/-! ## Rounds -/

/-- A variable of the frame has the topmost value after it has been set, and its
old one otherwise. -/
theorem Instruction.getElem?_update {i : Instruction} {base n : Nat} {xs : List Value}
    (h : base + n < xs.length) : (i.update base xs)[base + n]?.getD .null =
      if i.sets? = some (.frame n) then xs.getLast?.getD .null else xs[base + n]?.getD .null := by
  by_cases hi : ∃ k, i = .setLocal k
  · obtain ⟨k, rfl⟩ := hi
    rw [update, List.getElem?_set]
    by_cases hk : k.toNat = n
    · simp [hk, h, sets?]
    · simp [hk, sets?]
  · have hsets : i.sets? ≠ some (.frame n) := by
      intro heq
      cases i <;> cases heq
      exact hi ⟨_, rfl⟩
    rw [update_of_ne fun k hk => hi ⟨k, hk⟩, if_neg hsets]

/-- What is below the frame does not change. -/
theorem Instruction.getElem?_update_of_lt {i : Instruction} {base n : Nat} (h : n < base)
    (xs : List Value) : (i.update base xs)[n]? = xs[n]? := by
  unfold update
  split
  · rw [List.getElem?_set, if_neg (by omega)]
  · rfl

namespace Machine.Leaves

variable {frame : Frame} {callers : List Frame} {xs ys : List Value} {m : Machine} {j : Nat}

/-- What is below a frame, and below the callee, stays as it is in every
case. -/
theorem slot_of_lt_base (h : m.Leaves frame callers xs ys) (hj : j < frame.base - 1) :
    m.slot j = xs[j]?.getD .null := by
  rw [h.holds.slot_eq, ← List.getElem?_take_of_lt hj, h.below, List.getElem?_take_of_lt hj]

/-- If the frame is still there, its variables stay as well. -/
theorem slot_of_lt_floor (h : m.Leaves frame callers xs ys)
    (hlt : callers.length < m.frames.length) (hj : j < frame.floor) :
    m.slot j = xs[j]?.getD .null := by
  rw [h.holds.slot_eq, ← List.getElem?_take_of_lt hj, h.own hlt, List.getElem?_take_of_lt hj]

end Machine.Leaves

/-- A round sets no global but the one that its instruction sets. -/
theorem Exec.get_globals_of_ne {m m' : Machine} {running : Bool} {n : Nat}
    (hstep : step m = .ok running m') (h : ∀ frame callers i, m.frames = frame :: callers →
      frame.closure.body.code.decodeAt frame.ip = some (.ok i) → i.sets? ≠ some (.global n)) :
    m'.globals.get n = m.globals.get n := by
  have hget := globals_step (I := fun g => g.get n = m.globals.get n) (m := m) rfl ?_
  · rwa [hstep] at hget
  · intro frame callers k hframes hk g v hg
    rw [Globals.get_set, if_neg, hg]
    rintro rfl
    exact h frame callers _ hframes hk rfl

/-- **A global is set to the topmost value.** -/
theorem Exec.get_globals_of_setGlobal (frame : Frame) (n : UInt16) (m : Machine) :
    Yields (execute frame (.setGlobal n)) m fun _ m' =>
      m'.globals.get n.toNat = m.top?.getD .null := by
  intro _ m' hx
  by_cases hsp : m.sp = 0
  · rw [execute, Exec.bind_of_error _ (show pop m = _ from if_pos hsp)] at hx
    cases hx
  · rw [execute, Exec.bind_of_ok _ (show pop m = _ from if_neg hsp)] at hx
    cases hx
    show (m.globals.set n.toNat (m.slot (m.sp - 1))).get n.toNat = _
    rw [Globals.get_set, if_pos rfl, Machine.top?, if_neg hsp, Option.getD_some]

/-- **A variable of the frame is read** as it is. -/
theorem Machine.Piled.getLocal {frame : Frame} {frames : List Frame} {xs : List Value} {m : Machine}
    (h : m.Piled frames xs) (n : UInt8) :
    Yields (Exec.execute frame (.getLocal n)) m fun _ m' =>
      m'.top? = some (m.slot (frame.base + n.toNat)) := by
  refine (Machine.At.localSlot _ _).bind ?_
  rintro slot _ ⟨rfl, rfl, -⟩
  refine (h.push _).mono fun _ m' h' => ?_
  rw [h'.top?_eq, List.getLast?_concat]

/-- **A machine all variables of which are set where they should be.** -/
structure Machine.Orderly (bound : Nat) (m : Machine) : Prop where
  /-- The frames stand where they should. -/
  stands : m.Stands
  /-- What is not in use of the stack is null. -/
  holds : ∃ xs, m.Holds xs
  /-- All functions set only variables of their own. -/
  tidy : m.At Routine.Tidy m.frames m.sp
  /-- So do the frames. -/
  ordered : Ordered bound m.frames

/-- **What a round does to the frames** while the run goes on. -/
inductive Turn (frame : Frame) (callers : List Frame) (m m' : Machine) : Prop where
  /-- The frame returns. -/
  | back : m'.frames = callers → Turn frame callers m m'
  /-- The frame goes on. -/
  | next {i : Instruction} {ip : Nat} {mid : List Instruction} :
      frame.closure.body.code.decodeAt frame.ip = some (.ok i) →
      frame.closure.body.code.upTo ip = frame.closure.body.code.upTo frame.ip ++ i :: mid →
      m'.frames = { frame with ip } :: callers → Turn frame callers m m'
  /-- The frame calls a function, whose variables are null apart from the
  parameters. -/
  | enter {i : Instruction} {ip : Nat} {mid : List Instruction} {closure : Closure} {base : Nat} :
      frame.closure.body.code.decodeAt frame.ip = some (.ok i) →
      frame.closure.body.code.upTo ip = frame.closure.body.code.upTo frame.ip ++ i :: mid →
      m'.frames = ⟨closure, 0, base⟩ :: { frame with ip } :: callers →
      (∀ n, closure.body.params ≤ n → m'.slot (base + n) = .null) → Turn frame callers m m'

namespace Machine.Orderly

variable {bound : Nat} {m m' : Machine} {frame : Frame} {callers : List Frame}

theorem of_at {frames : List Frame} {sp : Nat} (hstands : m.Stands) (hholds : ∃ xs, m.Holds xs)
    (h : m.At Routine.Tidy frames sp) (hordered : Ordered bound frames) : m.Orderly bound :=
  ⟨hstands, hholds, { h with frames := rfl, sp := rfl }, h.frames.symm ▸ hordered⟩

/-- A function has room for its parameters among its variables. -/
theorem params_le (h : m.Orderly bound) {xs : List Value} (hxs : m.Holds xs) {identity : Nat}
    {body : Routine} {captured : List Value} (hmem : .closure identity body captured ∈ xs) :
    body.params ≤ body.locals := by
  have hstack : .closure identity body captured ∈ m.stack.toList := by
    rw [← hxs.eq]
    exact List.mem_append_left _ hmem
  cases h.tidy.stack _ hstack with
  | closure hbody => exact hbody.params_le

/-- The newest frame stands above its variables. -/
theorem frame_stands (h : m.Orderly bound) (hframes : m.frames = frame :: callers) :
    frame.Stands m.sp := by
  have hstacked := h.stands.stacked
  rw [hframes] at hstacked
  exact hstacked.stands

/-- **A round leaves things in order**, and does one of three things to the
frames. -/
theorem round (h : m.Orderly bound) (hframes : m.frames = frame :: callers)
    (hstep : Exec.step m = .ok true m') : m'.Orderly bound ∧ Turn frame callers m m' := by
  obtain ⟨xs, hxs⟩ := h.holds
  have hpiled : m.Piled (frame :: callers) xs := ⟨hxs, hframes⟩
  have hstands := h.stands.step hstep
  have hframe := h.frame_stands hframes
  have hordered := h.ordered
  have htidy := h.tidy
  rw [hframes] at hordered htidy
  have hround := htidy.round hordered.captured (hordered.bodies hframe) _ _ hstep
  rw [hxs.sp_eq] at hframe
  rcases hround with ⟨hfalse, -⟩ | ⟨hne, hend, hm'⟩ | ⟨i, hi, hm'⟩
  · cases hfalse
  · obtain ⟨ys, hleaves⟩ := hpiled.step_of_end hframe hne hend _ _ hstep
    exact ⟨of_at hstands ⟨ys, hleaves.holds⟩ hm' hordered.tail, .back hm'.frames⟩
  · have hfirst := h.frame_stands hframes
    obtain ⟨ys, hleaves⟩ := hpiled.step hframe (fun _ _ _ => h.params_le hxs) hi _ _ hstep
    have hholds : ∃ ys, m'.Holds ys := ⟨ys, hleaves.holds⟩
    cases hm' with
    | next _ _ hm' =>
      exact ⟨of_at hstands hholds hm' (hordered.move _),
        .next hi (hfirst.upTo_past hi) hm'.frames⟩
    | jump ht _ hm' =>
      -- A jump leads forward, so what comes before its target begins with what
      -- came before the jump and the jump itself.
      obtain ⟨mid, hmid⟩ := hfirst.upTo_target hi ht
      exact ⟨of_at hstands hholds hm' (hordered.move _), .next hi hmid hm'.frames⟩
    | @enter closure count hcall htakes hclosure hm' =>
      subst hcall
      have hfloor := hfirst.takes_le hi
      have hgrown : callers.length + 1 < m'.frames.length := by
        rw [hm'.frames]
        exact Nat.lt_succ_self _
      obtain ⟨closure', base, hentered⟩ :=
        hpiled.step_of_call (fun _ _ _ => h.params_le hxs) hi _ _ hstep hgrown
      refine ⟨of_at hstands hholds hm' (.call hclosure ?_ (hordered.move _)),
        .enter hi (hfirst.upTo_past hi) hentered.piled.frames fun _ =>
          hentered.slot_of_param_le⟩
      show frame.floor < m.sp - (Instruction.call count).takes + 1
      omega
    | back _ hne hm' => exact ⟨of_at hstands hholds hm' hordered.tail, .back hm'.frames⟩
    | ended hnil hm' => exact ⟨of_at hstands hholds hm' .none, .back (hm'.frames.trans hnil.symm)⟩

/-- So it is in all machines that a run comes by. -/
theorem visits (h : m.Orderly bound) (hm' : Visits m m') : m'.Orderly bound := by
  induction hm' with
  | here => exact h
  | @next m m₁ x hstep _ ih =>
    cases hframes : m.frames with
    | nil =>
      rw [Exec.step_of_no_frames hframes] at hstep
      cases hstep
    | cons frame callers => exact ih (h.round hframes hstep).1

/-! ## Values -/

/-- A round leaves everything that is below the newest frame. -/
theorem slot_of_lt_base (h : m.Orderly bound) (hframes : m.frames = frame :: callers)
    (hstep : Exec.step m = .ok true m') {j : Nat} (hj : j < frame.base - 1) :
    m'.slot j = m.slot j := by
  obtain ⟨xs, hxs⟩ := h.holds
  have hpiled : m.Piled (frame :: callers) xs := ⟨hxs, hframes⟩
  have hframe := hxs.sp_eq ▸ h.frame_stands hframes
  rw [hxs.slot_eq]
  cases hdecode : frame.closure.body.code.decodeAt frame.ip with
  | none =>
    have hne : callers ≠ [] := by
      rintro rfl
      rw [Exec.step_of_end hframes hdecode] at hstep
      cases hstep
    obtain ⟨ys, hleaves⟩ := hpiled.step_of_end hframe hne hdecode _ _ hstep
    exact hleaves.slot_of_lt_base hj
  | some result =>
    cases result with
    | error cause =>
      rw [Exec.step_of_frames hframes, hdecode] at hstep
      cases hstep
    | ok i =>
      obtain ⟨ys, hleaves⟩ := hpiled.step hframe (fun _ _ _ => h.params_le hxs) hdecode _ _ hstep
      rw [hleaves.slot_of_lt_base hj, Instruction.getElem?_update_of_lt (by omega)]

/-- **The variables of a frame that has called another stay as they are**, and
so do the globals. -/
theorem value_of_waiting (h : m.Orderly bound) {newest : Frame} {front : List Frame}
    (hframes : m.frames = newest :: (front ++ frame :: callers))
    (hstep : Exec.step m = .ok true m') {x : Variable} (hx : frame.Has x) :
    m'.value frame.base x = m.value frame.base x := by
  have hordered := h.ordered
  rw [hframes] at hordered
  cases x with
  | frame n =>
    have hfloor : frame.base + frame.closure.body.locals < newest.base := hordered.floor_lt
    have hn : n < frame.closure.body.locals := hx
    exact h.slot_of_lt_base hframes hstep (by omega)
  | global n =>
    refine Exec.get_globals_of_ne hstep fun frame' callers' i hframes' hi hsets => ?_
    rw [hframes] at hframes'
    cases hframes'
    -- The newest frame is a function's, and functions set no globals.
    obtain ⟨⟨hnil, -⟩, -⟩ := hordered.owns_of_sets? (h.frame_stands hframes) hi hsets
    exact List.append_ne_nil_of_right_ne_nil _ (List.cons_ne_nil _ _) hnil

/-- **What an instruction does to the variables of its frame**, if the frame
goes on. -/
theorem value_of_executing (h : m.Orderly bound) (hframes : m.frames = frame :: callers)
    (hstep : Exec.step m = .ok true m') {i : Instruction}
    (hi : frame.closure.body.code.decodeAt frame.ip = some (.ok i))
    (hlt : callers.length < m'.frames.length) {x : Variable} (hx : frame.Has x) :
    m'.value frame.base x =
      if i.sets? = some x then m.top?.getD .null else m.value frame.base x := by
  cases x with
  | frame n =>
    obtain ⟨xs, hxs⟩ := h.holds
    have hpiled : m.Piled (frame :: callers) xs := ⟨hxs, hframes⟩
    have hframe := hxs.sp_eq ▸ h.frame_stands hframes
    have hn : n < frame.closure.body.locals := hx
    have hfloor : frame.base + frame.closure.body.locals ≤ xs.length :=
      Nat.le_trans (Nat.le_add_right ..) (hframe.takes_le hi)
    obtain ⟨ys, hleaves⟩ := hpiled.step hframe (fun _ _ _ => h.params_le hxs) hi _ _ hstep
    rw [value, value, hleaves.slot_of_lt_floor hlt (Nat.add_lt_add_left hn _),
      Instruction.getElem?_update (by omega), hxs.top?_eq, hxs.slot_eq]
  | global n =>
    by_cases hsets : i.sets? = some (.global n)
    · rw [if_pos hsets]
      obtain ⟨k, rfl, rfl⟩ : ∃ k, i = .setGlobal k ∧ k.toNat = n := by
        cases i <;> cases hsets
        exact ⟨_, rfl, rfl⟩
      have hset : Yields Exec.step m fun _ m' => m'.globals.get k.toNat = m.top?.getD .null :=
        Exec.yields_step hframes hi fun _ _ => Exec.get_globals_of_setGlobal frame k _
      exact hset _ _ hstep
    · rw [if_neg hsets]
      refine Exec.get_globals_of_ne hstep fun frame' callers' i' hframes' hi' => ?_
      rw [hframes] at hframes'
      cases hframes'
      rw [hi] at hi'
      cases hi'
      exact hsets

end Machine.Orderly

/-! ## Variables that are not set yet -/

/-- **Variables are null until they are set.** -/
def Machine.Unset (bound : Nat) (m : Machine) : Prop :=
  ∀ front frame callers, m.frames = front ++ frame :: callers → ∀ x, frame.Owns bound callers x →
    x ∉ setsAll (frame.closure.body.code.upTo frame.ip) → m.value frame.base x = .null

/-- **A variable that has not been set yet is null**, and remains so in a round
that does not set it. A frame that returns takes its variables with it, and one
that is entered has null in all but its parameters. -/
theorem Machine.Unset.step {bound : Nat} {m m' : Machine} (hunset : m.Unset bound)
    (h : m.Orderly bound) (hstep : Exec.step m = .ok true m') : m'.Unset bound := by
  intro front frame callers hframes' x howns hx
  cases hframes : m.frames with
  | nil =>
    rw [Exec.step_of_no_frames hframes] at hstep
    cases hstep
  | cons newest rest =>
    -- A frame that waits is not touched by the round.
    have hwaiting : ∀ front, rest = front ++ frame :: callers → m'.value frame.base x = .null := by
      intro front hrest
      rw [hrest] at hframes
      rw [h.value_of_waiting hframes hstep howns.has]
      exact hunset (newest :: front) frame callers hframes x howns hx
    -- The frame that has executed an instruction has set what that sets, and it
    -- counts as executed from now on.
    have hgoes : ∀ {i ip mid}, newest.closure.body.code.decodeAt newest.ip = some (.ok i) →
        newest.closure.body.code.upTo ip = newest.closure.body.code.upTo newest.ip ++ i :: mid →
        rest.length < m'.frames.length → frame = { newest with ip } → callers = rest →
        m'.value frame.base x = .null := by
      rintro i ip mid hi hmid hlt rfl rfl
      rw [show ({ newest with ip } : Frame).closure.body.code.upTo ip = _ from hmid,
        Instruction.setsAll_append, List.mem_append, not_or] at hx
      have hsets : i.sets? ≠ some x :=
        fun hi => hx.2 (Instruction.mem_setsAll.2 ⟨i, List.mem_cons_self, hi⟩)
      rw [h.value_of_executing hframes hstep hi hlt howns.has, if_neg hsets]
      exact hunset [] newest callers hframes x howns hx.1
    obtain ⟨-, hturn⟩ := h.round hframes hstep
    cases hturn with
    | back hback => exact hwaiting front (hback.symm.trans hframes')
    | next hi hmid hnext =>
      have hlt : rest.length < m'.frames.length := hnext ▸ Nat.lt_succ_self _
      rw [hnext] at hframes'
      match front with
      | [] =>
        exact hgoes hi hmid hlt (List.cons.inj hframes').1.symm (List.cons.inj hframes').2.symm
      | _ :: front => exact hwaiting front (List.cons.inj hframes').2
    -- A frame that has just been entered has its parameters only.
    | enter hi hmid henter hnull =>
      have hlt : rest.length < m'.frames.length := by
        rw [henter, List.length_cons, List.length_cons]
        omega
      rw [henter] at hframes'
      match front with
      | [] =>
        cases hframes'
        cases x with
        | global n => cases howns.1
        | frame n => exact hnull n howns.1
      | [_] =>
        obtain ⟨hframe, hcallers⟩ := List.cons.inj (List.cons.inj hframes').2
        exact hgoes hi hmid hlt hframe.symm hcallers.symm
      | _ :: _ :: front => exact hwaiting front (List.cons.inj (List.cons.inj hframes').2).2

/-- So it is all along a run. -/
theorem Machine.Unset.visits {bound : Nat} {m m' : Machine} (hunset : m.Unset bound)
    (h : m.Orderly bound) (hm' : Visits m m') : m'.Unset bound := by
  induction hm' with
  | here => exact hunset
  | next hstep _ ih => exact ih (hunset.step h hstep) (h.visits (.next hstep (.here _)))

/-! ## Runs of a frame -/

/-- **A run in which there are always more than so many frames.** -/
inductive Stays (n : Nat) : Machine → Machine → Prop where
  | here {m : Machine} : n < m.frames.length → Stays n m m
  | next {m m₁ m' : Machine} : n < m.frames.length → Exec.step m = .ok true m₁ → Stays n m₁ m' →
      Stays n m m'

/-- **The machine after so many rounds**, if the run goes on for so long and
there are always more than so many frames. -/
def Machine.after? (m : Machine) (n : Nat) : (rounds : Nat) → Option Machine
  | 0 => if n < m.frames.length then some m else none
  | rounds + 1 =>
    if n < m.frames.length then
      match Exec.step m with
      | .ok true m₁ => m₁.after? n rounds
      | _ => none
    else none

/-- A machine that executes a round in the course of such a run. -/
def During (n : Nat) (m y m' : Machine) : Prop :=
  ∃ y', Stays n m y ∧ Exec.step y = .ok true y' ∧ Stays n y' m'

/-- **A frame is about to set a variable** to a value. -/
def Machine.Assigns (m : Machine) (frame : Frame) (callers : List Frame) (x : Variable)
    (v : Value) :
    Prop :=
  ∃ ip i, m.frames = { frame with ip } :: callers ∧
    frame.closure.body.code.decodeAt ip = some (.ok i) ∧ i.sets? = some x ∧ m.top? = some v

/-- A frame with some callers is at one place. -/
theorem Frame.ip_unique {frame : Frame} {front front' callers : List Frame} {ip ip' : Nat}
    (h : front ++ { frame with ip } :: callers = front' ++ { frame with ip := ip' } :: callers) :
    ip = ip' :=
  congrArg Frame.ip (List.cons.inj (List.append_inj' h rfl).2).1

namespace Machine

variable {bound : Nat} {m m' : Machine} {frame newest : Frame} {callers front : List Frame}
  {x : Variable} {v : Value}

/-- A frame that is about to execute an instruction sets what the instruction
sets. -/
theorem assigns_iff {i : Instruction} (hframes : m.frames = frame :: callers)
    (hi : frame.closure.body.code.decodeAt frame.ip = some (.ok i)) :
    m.Assigns frame callers x v ↔ i.sets? = some x ∧ m.top? = some v := by
  constructor
  · rintro ⟨ip, i', hframes', hi', hsets, htop⟩
    rw [hframes] at hframes'
    obtain rfl : frame.ip = ip := congrArg Frame.ip (List.cons.inj hframes').1
    rw [hi] at hi'
    cases hi'
    exact ⟨hsets, htop⟩
  · rintro ⟨hsets, htop⟩
    exact ⟨frame.ip, i, hframes, hi, hsets, htop⟩

/-- A frame that has called another sets nothing. -/
theorem not_assigns (hframes : m.frames = newest :: (front ++ frame :: callers)) :
    ¬ m.Assigns frame callers x v := by
  rintro ⟨ip, i, hframes', -⟩
  have hlen := congrArg List.length (hframes.symm.trans hframes')
  rw [List.length_cons, List.length_append, List.length_cons, List.length_cons] at hlen
  omega

/-- **What a round does to a frame that goes on**, at some place of its code. -/
structure Progress (m : Machine) (frame : Frame) (callers : List Frame) (ip : Nat) (m' : Machine) :
    Prop where
  /-- The frame goes forward. -/
  upTo : frame.closure.body.code.upTo frame.ip <+: frame.closure.body.code.upTo ip
  /-- A variable that it sets is behind it, and has the value that it was set
  to. -/
  assigned : ∀ x v, frame.Has x → m.Assigns frame callers x v → m'.value frame.base x = v ∧
    x ∈ setsAll (frame.closure.body.code.upTo ip)
  /-- All others are as they were. -/
  kept : ∀ x, frame.Has x → (∀ v, ¬ m.Assigns frame callers x v) →
    m'.value frame.base x = m.value frame.base x

/-- The newest frame executes an instruction and goes on. -/
theorem Orderly.progress_of_executing (h : m.Orderly bound) (hframes : m.frames = frame :: callers)
    (hstep : Exec.step m = .ok true m') (hlt : callers.length < m'.frames.length) {i : Instruction}
    (hi : frame.closure.body.code.decodeAt frame.ip = some (.ok i)) {ip : Nat}
    {mid : List Instruction} (hmid : frame.closure.body.code.upTo ip =
      frame.closure.body.code.upTo frame.ip ++ i :: mid) : m.Progress frame callers ip m' where
  upTo := ⟨_, hmid.symm⟩
  assigned x v hx hassigns := by
    obtain ⟨hsets, htop⟩ := (assigns_iff hframes hi).1 hassigns
    rw [h.value_of_executing hframes hstep hi hlt hx, if_pos hsets, htop, hmid,
      Instruction.setsAll_append]
    exact ⟨rfl, List.mem_append_right _ (Instruction.mem_setsAll.2 ⟨i, List.mem_cons_self, hsets⟩)⟩
  kept x hx hnot := by
    rw [h.value_of_executing hframes hstep hi hlt hx, if_neg]
    intro hsets
    -- What sets a variable takes a value, so that there is one on top.
    have htakes : i.takes = 1 := by cases i <;> first | rfl | cases hsets
    have hsp := (h.frame_stands hframes).takes_le hi
    have htop : m.top? = some (m.slot (m.sp - 1)) := if_neg (by omega)
    exact hnot _ ((assigns_iff hframes hi).2 ⟨hsets, htop⟩)

/-- A frame above executes an instruction or returns. -/
theorem Orderly.progress_of_waiting (h : m.Orderly bound)
    (hframes : m.frames = newest :: (front ++ frame :: callers))
    (hstep : Exec.step m = .ok true m') : m.Progress frame callers frame.ip m' where
  upTo := List.prefix_refl _
  assigned _ _ _ hassigns := (not_assigns hframes hassigns).elim
  kept _ hx _ := h.value_of_waiting hframes hstep hx

/-- **A round leaves a frame at the place where it was, or leads it forward**,
unless it returns. -/
theorem Orderly.advance (h : m.Orderly bound) (hframes : m.frames = front ++ frame :: callers)
    (hstep : Exec.step m = .ok true m') (hlt : callers.length < m'.frames.length) :
    ∃ front' ip, m'.frames = front' ++ { frame with ip } :: callers ∧
      m.Progress frame callers ip m' := by
  cases front with
  | nil =>
    obtain ⟨-, hturn⟩ := h.round hframes hstep
    cases hturn with
    | back hback => exact (Nat.lt_irrefl _ (hback ▸ hlt)).elim
    | next hi hmid hnext =>
      exact ⟨[], _, hnext, h.progress_of_executing hframes hstep hlt hi hmid⟩
    | enter hi hmid henter =>
      exact ⟨[_], _, henter, h.progress_of_executing hframes hstep hlt hi hmid⟩
  | cons newest front =>
    have hprogress := h.progress_of_waiting hframes hstep
    obtain ⟨-, hturn⟩ := h.round hframes hstep
    cases hturn with
    | back hback => exact ⟨front, frame.ip, hback, hprogress⟩
    | next _ _ hnext => exact ⟨_ :: front, frame.ip, hnext, hprogress⟩
    | enter _ _ henter => exact ⟨_ :: _ :: front, frame.ip, henter, hprogress⟩

/-- A frame that sets a variable owns it, and has not set it before. -/
theorem Orderly.owns_of_assigns (h : m.Orderly bound) (hassigns : m.Assigns frame callers x v)
    {ip : Nat} (hframes : m.frames = front ++ { frame with ip } :: callers) :
    frame.Owns bound callers x ∧ x ∉ setsAll (frame.closure.body.code.upTo ip) := by
  obtain ⟨ip', i, hframes', hi, hsets, -⟩ := hassigns
  obtain rfl := @Frame.ip_unique frame [] front callers ip' ip (hframes'.symm.trans hframes)
  have hordered := h.ordered
  rw [hframes'] at hordered
  exact hordered.owns_of_sets? (h.frame_stands hframes') hi hsets

/-- A frame that sets a variable has the variable behind it afterwards. -/
theorem Orderly.assigned (h : m.Orderly bound) (hassigns : m.Assigns frame callers x v)
    (hstep : Exec.step m = .ok true m') (hlt : callers.length < m'.frames.length) :
    ∃ front' ip, m'.frames = front' ++ { frame with ip } :: callers ∧ frame.Has x ∧
      x ∈ setsAll (frame.closure.body.code.upTo ip) ∧ m'.value frame.base x = v := by
  obtain ⟨ip, i, hframes, hi, hsets, -⟩ := id hassigns
  have hframes' : m.frames = [] ++ { frame with ip } :: callers := hframes
  have hx := (h.owns_of_assigns hassigns hframes').1.has
  obtain ⟨front', ip', hafter, hprogress⟩ := h.advance hframes' hstep hlt
  obtain ⟨hvalue, hbehind⟩ := hprogress.assigned x v hx hassigns
  exact ⟨front', ip', hafter, hx, hbehind, hvalue⟩

end Machine

namespace Stays

variable {bound n : Nat} {m m' y : Machine} {frame : Frame} {callers front : List Frame}
  {x : Variable} {v : Value} {front' : List Frame}

/-- A run that keeps a frame is a run. -/
theorem visits (h : Stays n m m') : Visits m m' := by
  induction h with
  | here => exact .here _
  | next _ hstep _ ih => exact .next hstep ih

/-- Runs can be found by executing them. -/
theorem of_after? {rounds : Nat} (h : (m.after? n rounds).isSome) :
    Stays n m ((m.after? n rounds).getD default) := by
  obtain ⟨m', hm'⟩ := Option.isSome_iff_exists.1 h
  rw [hm', Option.getD_some]
  clear h
  induction rounds generalizing m with
  | zero =>
    unfold Machine.after? at hm'
    split at hm' <;> cases hm'
    exact .here ‹_›
  | succ rounds ih =>
    unfold Machine.after? at hm'
    split at hm'
    · split at hm'
      · exact .next ‹_› ‹_› (ih hm')
      · cases hm'
    · cases hm'

/-- A single round. -/
theorem step_of_after? (h : (m.after? n 1).isSome) :
    Exec.step m = .ok true ((m.after? n 1).getD default) := by
  obtain ⟨m', hm'⟩ := Option.isSome_iff_exists.1 h
  rw [hm', Option.getD_some]
  unfold Machine.after? Machine.after? at hm'
  repeat' split at hm'
  all_goals cases hm'
  assumption

theorem lt_left (h : Stays n m m') : n < m.frames.length := by
  cases h with
  | here h => exact h
  | next h => exact h

/-- Two such runs in a row are one. -/
theorem trans (h₁ : Stays n m y) (h₂ : Stays n y m') : Stays n m m' := by
  induction h₁ with
  | here => exact h₂
  | next hlt hstep _ ih => exact .next hlt hstep (ih h₂)

/-- A frame that does not return goes forward in its code. -/
theorem frames (h : Stays callers.length m m') (hm : m.Orderly bound)
    (hframes : m.frames = front ++ frame :: callers) :
    ∃ front' ip, m'.frames = front' ++ { frame with ip } :: callers ∧
      frame.closure.body.code.upTo frame.ip <+: frame.closure.body.code.upTo ip := by
  induction h generalizing front frame with
  | here => exact ⟨front, frame.ip, hframes, List.prefix_refl _⟩
  | next _ hstep hrest ih =>
    obtain ⟨front₁, ip₁, hframes₁, hprogress⟩ := hm.advance hframes hstep hrest.lt_left
    obtain ⟨front', ip, hframes', hupTo⟩ := ih (hm.visits (.next hstep (.here _))) hframes₁
    exact ⟨front', ip, hframes', hprogress.upTo.trans hupTo⟩

/-- **A variable keeps its value unless the frame sets it.** -/
theorem value_eq (h : Stays callers.length m m') (hm : m.Orderly bound)
    (hframes : m.frames = front ++ frame :: callers) (hx : frame.Has x)
    (hnot : ∀ y v, During callers.length m y m' → ¬ y.Assigns frame callers x v) :
    m'.value frame.base x = m.value frame.base x := by
  induction h generalizing front frame with
  | here => rfl
  | @next m m₁ m' hlt hstep hrest ih =>
    obtain ⟨front₁, ip₁, hframes₁, hprogress⟩ := hm.advance hframes hstep hrest.lt_left
    have hrest' :=
      ih (hm.visits (.next hstep (.here _))) hframes₁ hx fun y v ⟨y', hy, hstep', hy'⟩ =>
      hnot y v ⟨y', .next hlt hstep hy, hstep', hy'⟩
    exact hrest'.trans (hprogress.kept x hx fun v => hnot m v ⟨m₁, .here hlt, hstep, hrest⟩)

/-- What a frame sets on its way is behind it at the end, and was not at the
beginning. -/
theorem mem_of_assigns (hm : m.Orderly bound) (hframes : m.frames = front ++ frame :: callers)
    (hy : During callers.length m y m') (hassigns : y.Assigns frame callers x v) {ip : Nat}
    (hframes' : m'.frames = front' ++ { frame with ip } :: callers) :
    x ∈ setsAll (frame.closure.body.code.upTo ip) ∧
      x ∉ setsAll (frame.closure.body.code.upTo frame.ip) := by
  obtain ⟨y', hbefore, hstep, hafter⟩ := hy
  have hy := hm.visits hbefore.visits
  have hy' := hy.visits (.next hstep (.here _))
  obtain ⟨_, ip₁, hframes₁, hupTo₁⟩ := hbefore.frames hm hframes
  obtain ⟨_, ip₂, hframes₂, -, hbehind, -⟩ := hy.assigned hassigns hstep hafter.lt_left
  obtain ⟨_, ip₃, hframes₃, hupTo₃⟩ := hafter.frames hy' hframes₂
  obtain rfl := Frame.ip_unique (hframes'.symm.trans hframes₃)
  refine ⟨Instruction.setsAll_subset hupTo₃ hbehind, fun hmem => ?_⟩
  exact (hy.owns_of_assigns hassigns hframes₁).2 (Instruction.setsAll_subset hupTo₁ hmem)

end Stays

end StackScript
