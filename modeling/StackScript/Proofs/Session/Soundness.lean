import StackScript.Proofs.Compiler.Growth
import StackScript.Proofs.Simulation.Programs
import StackScript.Session

/-!
# What a session keeps

A session can be in any state that programs, good or bad, lead to
(`Session.Reachable`). In all of them the names can be relied on and every
global stands for a value of the evaluator (`Session.Sound`); this is all that
compiling and running the next program needs. Whatever that program does, the
session is sound again afterwards: a run that halts halfway has set some
globals, and these stand for values of the evaluator too.
-/

namespace StackScript

open Instruction (encodeAll sizeAll)

/-- Every way to halt leaves the globals sound. -/
theorem Halts.sound {r : Course} {fault : Option (RuntimeError × World)} {e : Halt} {m : Machine}
    (h : Halts r fault e m) : m.Sound r.pool := by
  cases h with
  | overflow h => exact h
  | spent _ h => exact h
  | fault _ _ h => exact h.sound

/-- Every way to halt is one of a good program's. -/
theorem Halts.cause {r : Course} {fault : Option (RuntimeError × World)} {halt : Halt} {m : Machine}
    (h : Halts r fault halt m) : ∃ e, halt = .error e ∧ e.ofBadCode = false := by
  cases h with
  | overflow => exact ⟨_, rfl, rfl⟩
  | spent => exact ⟨_, rfl, rfl⟩
  | @fault _ e _ he =>
    refine ⟨e, rfl, ?_⟩
    cases e <;> first | rfl | cases he

/-- **An error that is the program's own fault**: not one that tells of bad
code, of a crash, or of a compiler that has lost track. -/
def SessionError.Proper : SessionError → Prop
  | .parse _ => True
  | .compile e => e.fault ≠ .corrupted
  | .runtime (.error e) => e.ofBadCode = false
  | .runtime _ => False

namespace Session

/-- **The states of a session.** -/
inductive Reachable (config : SessionConfig) : Session → Prop where
  | start : Reachable config (Session.start config)
  | evalSource {s : Session} (journal : Journal) (source : String) : Reachable config s →
      Reachable config (s.evalSource journal source).session
  | evalLine {s : Session} (journal : Journal) (source : String) : Reachable config s →
      Reachable config (s.evalLine journal source).session
  | compileSource {s : Session} (journal : Journal) (source : String) : Reachable config s →
      Reachable config (s.compileSource journal source).session
  | eval {s : Session} (journal : Journal) (program : List Stmt) : Reachable config s →
      Reachable config (s.eval journal program).session
  | compile {s : Session} (program : List Stmt) : Reachable config s →
      Reachable config (s.compile program).2
  | reset {s : Session} : Reachable config s → Reachable config s.reset

/-- **What holds of all states of a session**: it holds at the start, and
compiling, evaluating and forgetting keep it. -/
theorem Reachable.invariant {config : SessionConfig} {P : Session → Prop}
    (hstart : P (Session.start config))
    (hcompile : ∀ s program, P s → P (Session.compile s program).2)
    (heval : ∀ s journal program, P s → P (Session.eval s journal program).session)
    (hreset : ∀ s, P s → P (Session.reset s)) {s : Session} (h : Reachable config s) : P s := by
  induction h with
  | start => exact hstart
  | evalSource journal source _ ih =>
    unfold Session.evalSource
    split
    · exact ih
    · exact heval _ journal _ ih
  | evalLine journal source _ ih =>
    unfold Session.evalLine
    split
    · exact ih
    · exact heval _ journal _ ih
  | @compileSource s journal source _ ih =>
    unfold Session.compileSource
    split
    · exact ih
    · next program _ =>
      have hafter := hcompile s program ih
      split
      · next heq => rw [heq] at hafter; exact hafter
      · next heq => rw [heq] at hafter; exact hafter
  | eval journal program _ ih => exact heval _ journal program ih
  | compile program _ ih => exact hcompile _ program ih
  | reset _ ih => exact hreset _ ih

/-- **A session that the next program can rely on.** -/
structure Sound (s : Session) : Prop where
  /-- The names can be relied on. -/
  coherent : s.symbols.Coherent
  /-- No function is open. -/
  outer : s.symbols.outer = []
  /-- Every global stands for a value of the evaluator. -/
  globals : ∀ i, ∃ w, Related s.constants (s.globals.get i) w

variable {s s' : Session} {program : List Stmt} {bytecode : Bytecode}

theorem sound_reset (s : Session) : s.reset.Sound :=
  ⟨SymbolTable.coherent_initial, rfl, fun _ => ⟨.null, .null⟩⟩

/-- A session that forgets everything before a program is sound, as is one that
does not. -/
theorem Sound.prepared (h : s.Sound) : s.prepared.Sound := by
  unfold Session.prepared
  split
  · exact h
  · exact sound_reset s

/-- **What compiling a program does**: the program has a layout, and the session
has the names and the constants after it. -/
theorem Sound.compile (h : s.Sound) (hcompile : s.compile program = (.ok bytecode, s')) :
    ∃ is, Writes ⟨s.prepared.symbols, s.prepared.constants⟩ 0 (.stmts program) is
        ⟨s'.symbols, s'.constants⟩ ∧
      bytecode = ⟨(encodeAll is).toArray, s'.constants⟩ ∧
      s' = { s.prepared with symbols := s'.symbols, constants := s'.constants } := by
  unfold Session.compile at hcompile
  dsimp only at hcompile
  split at hcompile
  · cases hcompile
  · next c hc =>
    cases hcompile
    obtain ⟨is, hw, hbytecode⟩ := Compiler.writes_of_compile hc h.prepared.outer
    exact ⟨is, hw, hbytecode, rfl⟩

/-- **A program that does not compile leaves nothing behind.** -/
theorem session_of_compile_error {e : CompileError} (h : s.compile program = (.error e, s')) :
    s' = s.prepared := by
  unfold Session.compile at h
  dsimp only at h
  split at h
  · next c hc =>
    cases h
    have htake :=
      Compiler.take_constants (.withState s.prepared.symbols s.prepared.constants) program
    rw [hc] at htake
    exact congrArg (fun constants => { s.prepared with constants }) htake
  · cases h

/-- A program that does not compile is at fault itself, and leaves nothing
behind. -/
theorem Sound.compile_fault {e : CompileError} (h : s.Sound)
    (hcompile : s.compile program = (.error e, s')) : e.fault ≠ .corrupted ∧ s' = s.prepared := by
  refine ⟨?_, session_of_compile_error hcompile⟩
  unfold Session.compile at hcompile
  dsimp only at hcompile
  split at hcompile
  · next c hc =>
    cases hcompile
    exact Compiler.compile_fault hc h.prepared.outer
  · cases hcompile

/-- The session after a program was compiled is sound. -/
theorem Sound.compiled (h : s.Sound) (hcompile : s.compile program = (.ok bytecode, s')) :
    s'.Sound := by
  obtain ⟨is, hw, -, hs'⟩ := h.compile hcompile
  have hext := hw.extends h.prepared.coherent
  refine ⟨hext.coherent, ?_, fun i => ?_⟩
  · have houter := hext.outer
    rw [show (Setting.mk s.prepared.symbols s.prepared.constants).symbols.outer = [] from
      h.prepared.outer] at houter
    exact List.forall₂_nil_left_iff.1 houter
  · obtain ⟨w, hw⟩ := h.prepared.globals i
    rw [hs']
    exact ⟨w, hw.mono hext.constants⟩

/-- Compiling leaves a sound session, whether it succeeds or not. -/
theorem Sound.compile_session (h : s.Sound) (program : List Stmt) :
    (s.compile program).2.Sound := by
  cases hcompile : s.compile program with
  | mk result s' =>
    cases result with
    | error e => exact (h.compile_fault hcompile).2 ▸ h.prepared
    | ok bytecode => exact h.compiled hcompile

/-- **The run of a program** that was compiled in a sound session: it comes to
an end by itself, and it ends well, with sound globals. -/
theorem Sound.run (h : s.Sound) (hcompile : s.compile program = (.ok bytecode, s'))
    (budget : Option Nat) (identity : Nat) (journal : Journal) :
    let m := Machine.load bytecode s'.globals budget identity journal
    ∃ outcome m', Finishes m outcome m' ∧ m.run = (outcome, m') ∧ m'.Sound s'.constants ∧
      m'.EndsWell bytecode.code outcome := by
  obtain ⟨is, hw, rfl, -⟩ := h.compile hcompile
  obtain ⟨values, hvalues⟩ := Classical.skolem.1 (h.compiled hcompile).globals
  rcases hw.run h.prepared.coherent h.prepared.outer hvalues (Nat.le_refl _) budget identity journal
    with ⟨m', w, t, hfinishes, hrun, hends⟩ | ⟨halt, m', hfinishes, hrun, hhalts⟩
  · have hidle := hends.idle
    rw [← Instruction.length_encodeAll] at hidle
    exact ⟨.ok (), m', hfinishes, hrun, hends.standing.world.sound, hidle⟩
  · obtain ⟨e, rfl, he⟩ := hhalts.cause
    exact ⟨.error (.error e), m', hfinishes, hrun, hhalts.sound, he⟩

/-- No function comes to the end of its code: wherever the run of a program
comes by, the newest frame has an instruction to execute unless it is the top
level's. -/
theorem Sound.visits (h : s.Sound) (hcompile : s.compile program = (.ok bytecode, s'))
    (budget : Option Nat) (identity : Nat) (journal : Journal) {m : Machine}
    (hm : Visits (Machine.load bytecode s'.globals budget identity journal) m)
    {frame caller : Frame} {callers : List Frame}
    (hframes : m.frames = frame :: caller :: callers) :
    ∃ i, frame.closure.body.code.decodeAt frame.ip = some (.ok i) := by
  obtain ⟨is, hw, rfl, -⟩ := h.compile hcompile
  obtain ⟨values, hvalues⟩ := Classical.skolem.1 (h.compiled hcompile).globals
  rcases hw.visits h.prepared.coherent h.prepared.outer hvalues budget identity journal hm with
    ⟨frame', callers', i, hframes', hdecode⟩ | ⟨frame', hframes'⟩
  · rw [hframes] at hframes'
    cases hframes'
    exact ⟨i, hdecode⟩
  · rw [hframes] at hframes'
    cases hframes'

/-- **What an evaluation makes of a run**: the value discarded last, if the run
has come to its end; and the globals, unless it has not and the session is
atomic. -/
theorem eval_of_run {journal : Journal} {outcome : Except Halt Unit} {m : Machine}
    (hcompile : s.compile program = (.ok bytecode, s'))
    (hrun : (Machine.load bytecode s'.globals s'.config.budget s'.nextIdentity
      (journal.record fun _ =>
        .compiled program.length bytecode.code.size bytecode.constants.size)).run = (outcome, m)) :
    ((s.eval journal program).result = (outcome.mapError .runtime).map fun _ => m.lastPopped) ∧
      (s.eval journal program).output = m.output ∧
      (s.eval journal program).session = { s' with
        globals := if outcome.isOk || !s'.config.atomic then m.globals else s'.globals
        nextIdentity := m.nextIdentity } := by
  unfold Session.eval
  rw [hcompile]
  dsimp only
  rw [hrun]
  cases outcome with
  | ok => exact ⟨rfl, rfl, rfl⟩
  | error cause => cases hatomic : s'.config.atomic <;> exact ⟨rfl, rfl, rfl⟩

/-- Of what compiling leaves, running a program changes the globals at most, and
it uses up identities. -/
theorem session_eval (s : Session) (journal : Journal) (program : List Stmt) :
    ∃ globals nextIdentity, (s.eval journal program).session =
      { (s.compile program).2 with globals, nextIdentity } := by
  cases hcompile : s.compile program with
  | mk compiled s' =>
    cases compiled with
    | error e =>
      rw [Session.eval, hcompile]
      exact ⟨s'.globals, s'.nextIdentity, rfl⟩
    | ok bytecode => exact ⟨_, _, (eval_of_run hcompile rfl).2.2⟩

/-- **What an evaluation may come to.** -/
structure Safe {α : Type} (r : Report α) : Prop where
  /-- The session is sound afterwards. -/
  session : r.session.Sound
  /-- An error is the program's own fault. -/
  result : ∀ e, r.result = .error e → e.Proper

/-- **Whatever a program does, the session is sound again**, and an error is the
program's own fault. -/
theorem Sound.eval (h : s.Sound) (journal : Journal) (program : List Stmt) :
    Safe (s.eval journal program) := by
  unfold Session.eval
  split
  · next e s' hcompile =>
    obtain ⟨hfault, rfl⟩ := h.compile_fault hcompile
    exact ⟨h.prepared, fun _ he => by cases he; exact hfault⟩
  · next bytecode s' hcompile =>
    have hs' := h.compiled hcompile
    obtain ⟨outcome, m', -, hrun, hsound, hwell⟩ := h.run hcompile
      s'.config.budget s'.nextIdentity (journal.record fun _ =>
        .compiled program.length bytecode.code.size bytecode.constants.size)
    dsimp only
    rw [hrun]
    match outcome, hwell with
    | .ok (), _ => exact ⟨⟨hs'.coherent, hs'.outer, hsound.2⟩, nofun⟩
    | .error (.error e), he =>
      dsimp only
      split
      · exact ⟨⟨hs'.coherent, hs'.outer, hs'.globals⟩, fun _ heq => by cases heq; exact he⟩
      · exact ⟨⟨hs'.coherent, hs'.outer, hsound.2⟩, fun _ heq => by cases heq; exact he⟩

/-- So it is after a source, which may also be one that cannot be read. -/
theorem Sound.evalSource (h : s.Sound) (journal : Journal) (source : String) :
    Safe (s.evalSource journal source) := by
  unfold Session.evalSource
  split
  · exact ⟨h, fun _ he => by cases he; trivial⟩
  · exact h.eval journal _

/-- So it is after a line. -/
theorem Sound.evalLine (h : s.Sound) (journal : Journal) (source : String) :
    Safe (s.evalLine journal source) := by
  unfold Session.evalLine
  split
  · exact ⟨h, fun _ he => by cases he; trivial⟩
  · next program _ =>
    obtain ⟨hsession, hresult⟩ := h.eval journal program
    refine ⟨hsession, fun e he => hresult e ?_⟩
    change (s.eval journal program).result.map _ = .error e at he
    cases hr : (s.eval journal program).result with
    | ok v => rw [hr] at he; cases he
    | error e' => rw [hr] at he; cases he; rfl

/-- So it is after a source that is only compiled. -/
theorem Sound.compileSource (h : s.Sound) (journal : Journal) (source : String) :
    Safe (s.compileSource journal source) := by
  unfold Session.compileSource
  split
  · exact ⟨h, fun _ he => by cases he; trivial⟩
  · split
    · next e s' hcompile =>
      obtain ⟨hfault, rfl⟩ := h.compile_fault hcompile
      exact ⟨h.prepared, fun _ he => by cases he; exact hfault⟩
    · next hcompile => exact ⟨h.compiled hcompile, nofun⟩

/-- **Every state of a session is sound.** -/
theorem Reachable.sound {config : SessionConfig} (h : Reachable config s) : s.Sound := by
  induction h with
  | start => exact sound_reset (Session.start config)
  | evalSource journal source _ ih => exact (ih.evalSource journal source).session
  | evalLine journal source _ ih => exact (ih.evalLine journal source).session
  | compileSource journal source _ ih => exact (ih.compileSource journal source).session
  | eval journal program _ ih => exact (ih.eval journal program).session
  | compile program _ ih => exact ih.compile_session program
  | reset => exact sound_reset _

/-! ## Safety and termination -/

/-- **Compiled code never goes wrong.** Whatever a session has been through, an
evaluation that fails does so by the program's own fault: no error tells of bad
code, nothing crashes; and while a program runs, no function comes to the end of
its code. -/
theorem compiled_code_never_goes_wrong {config : SessionConfig} (h : Reachable config s)
    (journal : Journal) (source : String) :
    (∀ e, (s.evalSource journal source).result = .error e → e.Proper) ∧
    (∀ e, (s.evalLine journal source).result = .error e → e.Proper) ∧
    (∀ e, (s.compileSource journal source).result = .error e → e.Proper) ∧
    ∀ program bytecode s', s.compile program = (.ok bytecode, s') →
      ∀ budget identity journal m,
        Visits (Machine.load bytecode s'.globals budget identity journal) m →
        ∀ frame caller callers, m.frames = frame :: caller :: callers →
          frame.closure.body.code.decodeAt frame.ip ≠ none := by
  refine ⟨(h.sound.evalSource journal source).result, (h.sound.evalLine journal source).result,
    (h.sound.compileSource journal source).result, ?_⟩
  intro program bytecode s' hcompile budget identity journal m hm frame caller callers hframes
  obtain ⟨i, hi⟩ := h.sound.visits hcompile budget identity journal hm hframes
  rw [hi]
  exact nofun

/-- The session has a function left from a program that has failed. The next
program calls it, and fails itself after it has printed something. -/
theorem compiled_code_never_goes_wrong_after_failure :
    let s := ((Session.start { budget := some 40 }).evalSource (.empty false)
      "let f = fn(x) { let g = fn() { x }; g }; f(1, 2)").session
    (s.evalSource (.empty false) "puts(f(1)()); f(2)(3)").output = "1\n" ∧
    (∀ e, (s.evalSource (.empty false) "puts(f(1)()); f(2)(3)").result = .error e → e.Proper) := by
  intro s
  have hs : Reachable { budget := some 40 } s := .evalSource _ _ .start
  exact ⟨by decide +kernel, (compiled_code_never_goes_wrong hs _ _).1⟩

/-- **Every compiled program halts**, with or without a budget: after some
rounds the machine has come to the end of its code or to a run-time error, and
this is what its run comes to. -/
theorem compiled_program_halts {config : SessionConfig} (h : Reachable config s)
    (hcompile : s.compile program = (.ok bytecode, s')) (budget : Option Nat) (identity : Nat)
    (journal : Journal) :
    let m := Machine.load bytecode s'.globals budget identity journal
    ∃ n, (∃ m', Exec.rounds n m = .ok false m' ∧ m.run = (.ok (), m')) ∨
      ∃ e m', Exec.rounds n m = .error (.error e) m' ∧ m.run = (.error (.error e), m') := by
  obtain ⟨outcome, m', hfinishes, hrun, -, hwell⟩ := h.sound.run hcompile budget identity journal
  obtain ⟨n, hrounds⟩ := hfinishes.rounds
  match outcome, hwell with
  | .ok (), _ => exact ⟨n, .inl ⟨m', hrounds, hrun⟩⟩
  | .error (.error e), _ => exact ⟨n, .inr ⟨e, m', hrounds, hrun⟩⟩

/-- A function that calls its argument with itself, called with itself: it halts
because there is no room for another frame. -/
theorem compiled_program_halts_without_budget :
    let s := ((Session.start {}).evalSource (.empty false) "let f = fn(g) { g(g) };").session
    ∃ bytecode s', s.compile ((parse "f(f)").toOption.getD []) = (.ok bytecode, s') ∧
      let m := Machine.load bytecode s'.globals none s'.nextIdentity (.empty false)
      ∃ n, (∃ m', Exec.rounds n m = .ok false m' ∧ m.run = (.ok (), m')) ∨
        ∃ e m', Exec.rounds n m = .error (.error e) m' ∧ m.run = (.error (.error e), m') := by
  intro s
  have hs : Reachable {} s := .evalSource _ _ .start
  have hok : (s.compile ((parse "f(f)").toOption.getD [])).1.toOption.isSome = true := by
    decide +kernel
  cases h : s.compile ((parse "f(f)").toOption.getD []) with
  | mk result s' =>
    rw [h] at hok
    cases result with
    | error e => cases hok
    | ok bytecode => exact ⟨bytecode, s', rfl, compiled_program_halts hs h none s'.nextIdentity _⟩

end Session

end StackScript
