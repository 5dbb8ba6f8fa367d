import StackScript.Proofs.Machine.Isolation
import StackScript.Proofs.Session.Consistency

/-!
# Frames in the runs of a session

A session compiles one program after another, and runs each against the globals
that the runs before it have left. However that has come about, the machine that
runs a program begins in order (`Session.Reachable.orderly_load`), with no
variable set that the program may set (`Session.Reachable.unset_load`). What the
machine does to frames and to the stack can therefore be said of all runs of all
sessions. Main statements: `Session.frames_are_isolated` and
`Session.no_stale_values`.
-/

namespace StackScript

open Instruction (setsAll)

namespace Session

variable {config : SessionConfig} {s s' : Session} {program : List Stmt} {bytecode : Bytecode}

/-- **The machine that runs a program begins in order.** The globals that the
program may set are those that were not there before. -/
theorem Reachable.orderly_load (h : Reachable config s)
    (hcompile : s.compile program = (.ok bytecode, s')) (budget : Option Nat) (identity : Nat)
    (journal : Journal) :
    (Machine.load bytecode s'.globals budget identity journal).Orderly
      s.prepared.symbols.inner.definitions := by
  have hs' := h.of_compile hcompile
  have hstands := h.stands_load hcompile budget identity journal
  obtain ⟨is, hw, rfl, -⟩ := h.sound.compile hcompile
  have htop : (⟨s.prepared.symbols, s.prepared.constants⟩ : Setting).AtTop :=
    ⟨h.sound.prepared.coherent, h.sound.prepared.outer⟩
  refine ⟨hstands, ⟨[], rfl, Nat.zero_le _⟩, ⟨rfl, rfl, ?_, ?_, ?_⟩,
    .main ⟨rfl, is, rfl, ?_, hw.sets_top htop⟩⟩
  · exact hs'.compiler.constants_all ⟨.number, .string, fun body h => .routine h.tidy⟩
  · exact fun v hv => List.eq_of_mem_replicate hv ▸ .null
  · exact hs'.sound.bodies_globals fun _ _ _ hbody => hbody.emitted.tidy
  · exact hw.currentClosure_notMem htop

/-- **A frame and those above it leave alone what is below the frame.** Whenever
a round of a run opens a frame, it calls a closure that stands below its
arguments. Until the frame returns, no round changes a slot below the first of
the frame or a frame below it, not even a round that halts. When the frame
returns, the slots below the one of the closure are as they were when it was
called; that slot holds the result, which is what the frame has on top of the
stack or null, the stack ends there, and all slots above it are null. -/
theorem frames_are_isolated (h : Reachable config s)
    (hcompile : s.compile program = (.ok bytecode, s')) (budget : Option Nat) (identity : Nat)
    (journal : Journal) :
    let start := Machine.load bytecode s'.globals budget identity journal
    (∀ m m', Visits start m → Exec.step m = .ok true m' → m.frames.length < m'.frames.length →
      ∃ caller callers count frame, m.Calls caller callers count frame m') ∧
    ∀ m₀ m₁ caller callers count frame, Visits start m₀ → m₀.Calls caller callers count frame m₁ →
      (frame.base + count.toNat = m₀.sp ∧ 0 < frame.base ∧
        m₀.slot (frame.base - 1) = frame.closure.value) ∧
      ∀ m, Stays (callers.length + 1) m₁ m →
        m₀.SameBelow frame (caller.past (.call count) :: callers) m ∧
        (∀ e m', Exec.step m = .error e m' →
          m₀.SameBelow frame (caller.past (.call count) :: callers) m') ∧
        ∀ m', Exec.step m = .ok true m' → m'.frames.length ≤ callers.length + 1 →
          ∃ ip i v, m.frames = { frame with ip } :: caller.past (.call count) :: callers ∧
            frame.closure.body.code.decodeAt ip = some (.ok i) ∧ i.Returns m v ∧
            m₀.Returned frame (caller.past (.call count) :: callers) v m' := by
  intro start
  have hstart : start.Orderly _ := h.orderly_load hcompile budget identity journal
  refine ⟨fun m m' hm hstep hlt => (hstart.visits hm).calls_of_lt hstep hlt, ?_⟩
  intro m₀ m₁ caller callers count frame hm₀ hcalls
  have horderly₀ := hstart.visits hm₀
  have horderly₁ := horderly₀.visits (.next hcalls.step (.here _))
  obtain ⟨xs, hxs, -, hentered⟩ := horderly₀.entered hcalls
  obtain ⟨hpos, hcallee⟩ := hentered.callee
  have hargs := hentered.args
  rw [← hxs.slot_eq] at hcallee
  refine ⟨⟨hargs.trans hxs.sp_eq.symm, hpos, hcallee⟩, fun m => ?_⟩
  intro (hstays : Stays (caller.past (.call count) :: callers).length m₁ m)
  -- The call itself leaves all that is on the stack.
  have hcall : ∀ j < frame.base, m₁.slot j = m₀.slot j := fun j hj => by
    rw [hentered.slot_of_lt (by omega), hxs.slot_eq]
  have hsame : ∀ {m'}, m₁.SameBelow frame (caller.past (.call count) :: callers) m' →
      m₀.SameBelow frame (caller.past (.call count) :: callers) m' :=
    fun h' => ⟨h'.frames, fun j hj => (h'.slots j hj).trans (hcall j hj)⟩
  have hframes₁ : m₁.frames = [] ++ frame :: caller.past (.call count) :: callers := hcalls.after
  have hrun := Stays.sameBelow hstays horderly₁ hframes₁
  have horderly := horderly₁.visits hstays.visits
  obtain ⟨front, ip, hframes⟩ := hrun.frames
  refine ⟨hsame hrun, fun e m' hhalt => ?_, fun m' hstep hback => ?_⟩
  · have hround := horderly.sameBelow_of_halt hframes hhalt
    exact hsame ⟨hround.frames, fun j hj => (hround.slots j hj).trans (hrun.slots j hj)⟩
  · cases front with
    | cons newest front =>
      -- A frame above returns, so that this one is there still.
      obtain ⟨-, hturn⟩ := horderly.round hframes hstep
      have hlen : (front ++ { frame with ip } :: caller.past (.call count) :: callers).length ≤
          m'.frames.length := by
        cases hturn with
        | back hback => exact Nat.le_of_eq (congrArg List.length hback).symm
        | next _ _ hnext => exact hnext ▸ Nat.le_succ _
        | enter _ _ henter => exact henter ▸ Nat.le_trans (Nat.le_succ _) (Nat.le_succ _)
      rw [List.length_append, List.length_cons, List.length_cons] at hlen
      omega
    | nil =>
      have hm : Visits start m := .trans hm₀ (.next hcalls.step hstays.visits)
      obtain ⟨i, hi⟩ := h.sound.visits hcompile budget identity journal hm hframes
      obtain ⟨v, hreturns, hreturned⟩ := horderly.returned hframes hi hstep hback
      refine ⟨ip, i, v, hframes, hi, hreturns, { hreturned with below := fun j hj => ?_ }⟩
      rw [hreturned.below j hj, hrun.slots j (by omega), hcall j (by omega)]

/-- The function returns from within an operand, with a value of its own still
on the stack. The item before the call is untouched, and the result stands
behind it. -/
theorem frames_are_isolated_early_return :
    let s := ((Session.start {}).evalSource (.empty false)
      "let f = fn(a) { let b = a; 1 + if (b) { return b; } };").session
    let program := (parse "[7, f(3)]").toOption.getD []
    let bytecode := (s.compile program).1.toOption.getD default
    let s' := (s.compile program).2
    let start := Machine.load bytecode s'.globals none s'.nextIdentity (.empty false)
    s.compile program = (.ok bytecode, s') ∧
      ∃ m₀ m₁ m m' caller callers count frame v, Visits start m₀ ∧
        m₀.Calls caller callers count frame m₁ ∧ Stays (callers.length + 1) m₁ m ∧
        Exec.step m = .ok true m' ∧ m'.frames.length ≤ callers.length + 1 ∧
        m₀.Returned frame (caller.past (.call count) :: callers) v m' := by
  intro s program bytecode s' start
  have hs : Reachable {} s := .evalSource _ _ .start
  have hcompile : s.compile program = (.ok bytecode, s') := eq_ok_of_isOk (by decide +kernel)
  let m₀ := (start.after? 0 3).getD default
  let m₁ := (m₀.after? 0 1).getD default
  let m := (m₁.after? 1 6).getD default
  let m' := (m.after? 0 1).getD default
  have hvisits : Visits start m₀ := (Stays.of_after? (by decide +kernel)).visits
  have hopen : Exec.step m₀ = .ok true m₁ := Stays.step_of_after? (by decide +kernel)
  have hrun : Stays 1 m₁ m := Stays.of_after? (by decide +kernel)
  have hclose : Exec.step m = .ok true m' := Stays.step_of_after? (by decide +kernel)
  have hlengths : m₀.frames.length = 1 ∧ m₁.frames.length = 2 ∧ m'.frames.length = 1 := by
    decide +kernel
  obtain ⟨hopens, hisolated⟩ := frames_are_isolated hs hcompile none s'.nextIdentity (.empty false)
  obtain ⟨caller, callers, count, frame, hcalls⟩ := hopens m₀ m₁ hvisits hopen (by omega)
  have hcallers : callers.length = 0 := by
    have hlength := hlengths.1
    rw [hcalls.before, List.length_cons] at hlength
    omega
  have hstays : Stays (callers.length + 1) m₁ m := hcallers.symm ▸ hrun
  have hback : m'.frames.length ≤ callers.length + 1 := by omega
  obtain ⟨-, hframe⟩ := hisolated m₀ m₁ caller callers count frame hvisits hcalls
  obtain ⟨-, -, v, -, -, -, hreturned⟩ := (hframe m hstays).2.2 m' hclose hback
  exact ⟨hcompile, m₀, m₁, m, m', caller, callers, count, frame, v, hvisits, hcalls, hstays, hclose,
    hback, hreturned⟩

/-- **Nothing that a call has left on the stack is ever read.** Wherever a run
comes by, the slots that are not in use are null. So a variable of a frame that
is no parameter is null until the frame has executed the instruction that sets
it, and null is what reading it gives. -/
theorem no_stale_values (h : Reachable config s)
    (hcompile : s.compile program = (.ok bytecode, s')) (budget : Option Nat) (identity : Nat)
    (journal : Journal) :
    let start := Machine.load bytecode s'.globals budget identity journal
    (∀ m, Visits start m → ∀ j, m.sp ≤ j → m.slot j = .null) ∧
    ∀ m₀ m₁ caller callers count frame, Visits start m₀ → m₀.Calls caller callers count frame m₁ →
      ∀ m n, Stays (callers.length + 1) m₁ m →
        frame.closure.body.params ≤ n → n < frame.closure.body.locals →
        (∀ y v, During (callers.length + 1) m₁ y m →
          ¬ y.Assigns frame (caller.past (.call count) :: callers) (.frame n) v) →
        m.slot (frame.base + n) = .null ∧
        ∀ ip k m', m.frames = { frame with ip } :: caller.past (.call count) :: callers →
          frame.closure.body.code.decodeAt ip = some (.ok (.getLocal k)) → k.toNat = n →
          Exec.step m = .ok true m' → m'.top? = some .null := by
  intro start
  have hstart : start.Orderly _ := h.orderly_load hcompile budget identity journal
  refine ⟨fun m hm j hj => ?_, ?_⟩
  · obtain ⟨xs, hxs⟩ := (hstart.visits hm).holds
    rw [hxs.slot_eq, List.getElem?_eq_none (hxs.sp_eq ▸ hj)]
    rfl
  · intro m₀ m₁ caller callers count frame hm₀ hcalls m n
      (hstays : Stays (caller.past (.call count) :: callers).length m₁ m) hparams hlocals hnot
    have horderly₀ := hstart.visits hm₀
    have horderly₁ := horderly₀.visits (.next hcalls.step (.here _))
    obtain ⟨_, -, -, hentered⟩ := horderly₀.entered hcalls
    have hnull : m.slot (frame.base + n) = .null := by
      have hframes₁ : m₁.frames = [] ++ frame :: caller.past (.call count) :: callers :=
        hcalls.after
      have hvalue := Stays.value_eq (x := .frame n) hstays horderly₁ hframes₁ hlocals hnot
      exact hvalue.trans (hentered.slot_of_param_le hparams)
    refine ⟨hnull, ?_⟩
    rintro ip k m' hframes hi rfl hstep
    obtain ⟨ys, hys⟩ := (horderly₁.visits hstays.visits).holds
    have hpiled : m.Piled ({ frame with ip } :: caller.past (.call count) :: callers) ys :=
      ⟨hys, hframes⟩
    have hread : Exec.Yields Exec.step m fun _ m' =>
        m'.top? = some (m.slot (frame.base + k.toNat)) :=
      Exec.yields_step hframes hi fun budget journal => (hpiled.past budget journal).getLocal k
    rw [hread _ _ hstep, hnull]

/-- The slots of the second call are those of the first, which has left an array
in one of them. It is null until the second call sets it. -/
theorem no_stale_values_second_call :
    let s := ((Session.start {}).evalSource (.empty false)
      "let f = fn(a) { let b = [a, 2]; b };").session
    let program := (parse "f(1); f(3)").toOption.getD []
    let bytecode := (s.compile program).1.toOption.getD default
    let s' := (s.compile program).2
    let start := Machine.load bytecode s'.globals none s'.nextIdentity (.empty false)
    s.compile program = (.ok bytecode, s') ∧
      ∃ m₀ m₁ m caller callers count frame, Visits start m₀ ∧
        m₀.Calls caller callers count frame m₁ ∧ Stays (callers.length + 1) m₁ m ∧
        frame.closure.body.params = 1 ∧ frame.closure.body.locals = 2 ∧
        m.top?.map Value.text = some "[3, 2]" ∧ m.slot (frame.base + 1) = .null := by
  intro s program bytecode s' start
  have hs : Reachable {} s := .evalSource _ _ .start
  have hcompile : s.compile program = (.ok bytecode, s') := eq_ok_of_isOk (by decide +kernel)
  let m₀ := (start.after? 0 12).getD default
  let m₁ := (m₀.after? 0 1).getD default
  let m := (m₁.after? 1 3).getD default
  have hvisits : Visits start m₀ := (Stays.of_after? (by decide +kernel)).visits
  have hopen : Exec.step m₀ = .ok true m₁ := Stays.step_of_after? (by decide +kernel)
  have hrun : Stays 1 m₁ m := Stays.of_after? (by decide +kernel)
  have hlengths : m₀.frames.length = 1 ∧ m₁.frames.length = 2 := by decide +kernel
  have hbody : m₁.frames.head?.map (fun f => (f.closure.body.params, f.closure.body.locals)) =
      some (1, 2) := by decide +kernel
  have hpassed : ∀ f ∈ m.frames, setsAll (f.closure.body.code.upTo f.ip) = [] := by decide +kernel
  have horderly₀ := (hs.orderly_load hcompile none s'.nextIdentity (.empty false)).visits hvisits
  have horderly₁ := horderly₀.visits (.next hopen (.here _))
  obtain ⟨caller, callers, count, frame, hcalls⟩ := horderly₀.calls_of_lt hopen (by omega)
  have hcallers : callers.length = 0 := by
    have hlength := hlengths.1
    rw [hcalls.before, List.length_cons] at hlength
    omega
  have hstays : Stays (caller.past (.call count) :: callers).length m₁ m := by
    rw [List.length_cons, hcallers]
    exact hrun
  obtain ⟨hparams, hlocals⟩ : frame.closure.body.params = 1 ∧ frame.closure.body.locals = 2 := by
    rw [hcalls.after] at hbody
    exact Prod.mk.inj (Option.some.inj hbody)
  have hframes₁ : m₁.frames = [] ++ frame :: caller.past (.call count) :: callers := hcalls.after
  -- The frame has not come to the instruction yet.
  have hnot : ∀ y v, During (callers.length + 1) m₁ y m →
      ¬ y.Assigns frame (caller.past (.call count) :: callers) (.frame 1) v := by
    intro y v hy hassigns
    obtain ⟨front, ip, hframes, -⟩ := hstays.frames horderly₁ hframes₁
    have hmem := (Stays.mem_of_assigns horderly₁ hframes₁ hy hassigns hframes).1
    have hnone := hpassed { frame with ip } (hframes ▸ List.mem_append_right _ List.mem_cons_self)
    exact List.not_mem_nil (hnone ▸ hmem)
  obtain ⟨-, hnull⟩ := no_stale_values hs hcompile none s'.nextIdentity (.empty false)
  obtain ⟨hslot, -⟩ := hnull m₀ m₁ caller callers count frame hvisits hcalls m 1 hstays
    (by omega) (by omega) hnot
  exact ⟨hcompile, m₀, m₁, m, caller, callers, count, frame, hvisits, hcalls, hstays, hparams,
    hlocals, by decide +kernel, hslot⟩

end Session

end StackScript
