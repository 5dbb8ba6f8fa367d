import StackScript.Proofs.Compiler.Completeness
import StackScript.Proofs.Compiler.TopLevel
import StackScript.Proofs.Session.Depth

/-!
# What a failed program leaves behind

A program can fail before it runs, because it cannot be read or compiled, or
while it runs.

In the first case a session that keeps what programs leave behind is as it was,
so that no later answer can tell of the failure
(`Session.failed_compilation_leaves_no_trace`). The compiler may have added
constants by then, from however deep inside of functions; they come after those
that were there, and are dropped.

In the second case the names of the program stay. In an atomic session the
globals are put back, so that a name has its value again
(`Session.failed_run_keeps_globals`), unless the program has bound it again:
then it goes on to stand for the variable of the failed program, and nothing
leads to the old one any more (`Session.rebound_name_is_lost`).
-/

namespace StackScript

open Instruction (encodeAll)

/-! ## Requests -/

/-- **What a session can be asked for.** -/
inductive Request where
  /-- To compile a source. -/
  | compileSource (source : String)
  /-- To evaluate a source. -/
  | evalSource (source : String)
  /-- To evaluate a line of input. -/
  | evalLine (source : String)
  /-- To forget what programs have left behind. -/
  | reset

/-- **What a request that succeeds gives.** -/
inductive Response where
  /-- The code of a source. -/
  | bytecode (code : Bytecode)
  /-- The value of a source. -/
  | value (v : Value)
  /-- The value of a line, if it is worth showing. -/
  | line (v : Option Value)
  /-- Nothing. -/
  | done

/-- Whether an error was found before anything ran. -/
def SessionError.beforeRun : SessionError → Bool
  | parse _ | compile _ => true
  | runtime _ => false

/-- The error that a report tells of, if it tells of one. -/
def Report.error? {α : Type} (r : Report α) : Option SessionError :=
  match r.result with
  | .ok _ => none
  | .error e => some e

/-- A report that tells of an error has it as its result. -/
theorem Report.result_of_error? {α : Type} {r : Report α} {e : SessionError}
    (h : r.error? = some e) : r.result = .error e := by
  unfold Report.error? at h
  split at h
  · cases h
  · next heq => cases h; exact heq

namespace Session

variable {s s' : Session} {journal : Journal} {program : List Stmt} {bytecode : Bytecode}

/-- **Answers a request.** -/
def answer (s : Session) (journal : Journal) : Request → Report Response
  | .compileSource source => (s.compileSource journal source).map .bytecode
  | .evalSource source => (s.evalSource journal source).map .value
  | .evalLine source => (s.evalLine journal source).map .line
  | .reset => ⟨.ok .done, "", journal, s.reset⟩

/-- **Answers requests one after another.** -/
def answers (s : Session) (journal : Journal) : List Request → List (Report Response)
  | [] => []
  | request :: later =>
    let report := s.answer journal request
    report :: report.session.answers report.journal later

/-! ## Failures before the run -/

/-- **A report that spares a session**: if it tells of an error that was found
before anything ran, then nothing was written or recorded, and the session is as
it was. -/
def Spared {α : Type} (s : Session) (journal : Journal) (r : Report α) : Prop :=
  ∀ e, r.result = .error e → e.beforeRun = true → r = ⟨.error e, "", journal, s⟩

/-- A report of an error that comes with the session as it was spares it. -/
theorem spared_error {α : Type} (e : SessionError) :
    s.Spared journal (⟨.error e, "", journal, s⟩ : Report α) := by
  rintro _ ⟨⟩ -
  rfl

/-- What is made of the result has no part in this. -/
theorem Spared.map {α β : Type} {f : α → β} {r : Report α} (h : s.Spared journal r) :
    s.Spared journal (r.map f) := by
  intro e he hbefore
  cases hr : r.result with
  | ok a =>
    rw [Report.map, hr] at he
    cases he
  | error e' =>
    rw [Report.map, hr] at he
    cases he
    rw [h e hr hbefore]
    rfl

/-- A session that keeps what programs leave behind is not prepared anew. -/
theorem prepared_of_persistent (h : s.config.persistent = true) : s.prepared = s := by
  rw [Session.prepared, if_pos h]

/-- In a session that keeps what programs leave behind, a program that does not
compile changes nothing. -/
theorem eq_of_compile_error {e : CompileError} (hpersistent : s.config.persistent = true)
    (h : s.compile program = (.error e, s')) : s' = s :=
  (session_of_compile_error h).trans (prepared_of_persistent hpersistent)

/-- **A program that does not compile leaves the session as it was.** If it does
compile, its error is of the run. -/
theorem spared_eval (hpersistent : s.config.persistent = true) (program : List Stmt) :
    s.Spared journal (s.eval journal program) := by
  unfold Session.eval
  split
  · next hcompile =>
    obtain rfl := eq_of_compile_error hpersistent hcompile
    exact spared_error _
  · intro e he hbefore
    dsimp only at he
    split at he
    · cases he
    · split at he <;> cases he <;> cases hbefore

/-- So does a source that cannot be read, which does not even come to the
compiler. -/
theorem spared_evalSource (hpersistent : s.config.persistent = true) (source : String) :
    s.Spared journal (s.evalSource journal source) := by
  unfold Session.evalSource
  split
  · exact spared_error _
  · exact spared_eval hpersistent _

/-- So does a line. -/
theorem spared_evalLine (hpersistent : s.config.persistent = true) (source : String) :
    s.Spared journal (s.evalLine journal source) := by
  unfold Session.evalLine
  split
  · exact spared_error _
  · exact (spared_eval hpersistent _).map

/-- So does a source that is only compiled. -/
theorem spared_compileSource (hpersistent : s.config.persistent = true) (source : String) :
    s.Spared journal (s.compileSource journal source) := by
  unfold Session.compileSource
  split
  · exact spared_error _
  · split
    · next hcompile =>
      obtain rfl := eq_of_compile_error hpersistent hcompile
      exact spared_error _
    · rintro _ ⟨⟩

/-- **Whatever the request was**, an error before anything ran leaves the
session as it was. -/
theorem spared_answer (hpersistent : s.config.persistent = true) (request : Request) :
    s.Spared journal (s.answer journal request) := by
  cases request with
  | compileSource source => exact (spared_compileSource hpersistent source).map
  | evalSource source => exact (spared_evalSource hpersistent source).map
  | evalLine source => exact (spared_evalLine hpersistent source).map
  | reset => rintro _ ⟨⟩

/-- **A program that fails before it runs leaves no trace.** When a source
cannot be read or compiled, names, constants and globals are those before, and
all later requests are answered as if the source had not been there. -/
theorem failed_compilation_leaves_no_trace (hpersistent : s.config.persistent = true)
    (journal : Journal) (request : Request) {e : SessionError}
    (hfail : (s.answer journal request).error? = some e) (hbefore : e.beforeRun = true) :
    let after := (s.answer journal request).session
    (after.symbols = s.symbols ∧ after.constants = s.constants ∧ after.globals = s.globals) ∧
      ∀ later, s.answers journal (request :: later) =
        ⟨.error e, "", journal, after⟩ :: s.answers journal later := by
  have hreport := spared_answer hpersistent request e (Report.result_of_error? hfail) hbefore
  rw [hreport]
  refine ⟨⟨rfl, rfl, rfl⟩, fun later => ?_⟩
  rw [answers, hreport]

/-- The unknown name stands inside of three functions, and constants have been
added before it. Later answers are those of a session that was never given this
line. -/
theorem failed_compilation_leaves_no_trace_nested :
    let s :=
      ((Session.start {}).evalSource (.empty false) "let a = 1; let f = fn(x) { x };").session
    let source := "let b = [2, a]; let g = fn(x) { let c = 3; fn(y) { c + fn(z) { missing }(y) } };"
    let after := (s.answer (.empty false) (.evalLine source)).session
    (parse source).isOk = true ∧
      ∃ e, (s.answer (.empty false) (.evalLine source)).error? = some e ∧ e.beforeRun = true ∧
        (after.symbols = s.symbols ∧ after.constants = s.constants ∧ after.globals = s.globals) ∧
        ∀ later, s.answers (.empty false) (.evalLine source :: later) =
          ⟨.error e, "", .empty false, after⟩ :: s.answers (.empty false) later := by
  intro s source after
  have hany : (s.answer (.empty false) (.evalLine source)).error?.any (·.beforeRun) = true := by
    decide +kernel
  obtain ⟨e, hfail, hbefore⟩ := (Option.any_eq_true _ _).1 hany
  have hpersistent : s.config.persistent = true := by decide +kernel
  exact ⟨by decide +kernel, e, hfail, hbefore,
    failed_compilation_leaves_no_trace hpersistent (.empty false) _ hfail hbefore⟩

end Session

/-! ## Reading a global -/

/-- **Code that reads a global** comes to its end with the global as the value
discarded last. -/
theorem Finishes.of_getGlobal (constants : Array Value) (globals : Globals) (identity : Nat)
    (journal : Journal) (index : UInt16) :
    ∃ m, Finishes (Machine.load ⟨(encodeAll [.getGlobal index, .pop]).toArray, constants⟩ globals
        none identity journal) (.ok ()) m ∧
      m.lastPopped = globals.get index.toNat := by
  have hplaced := Code.Placed.all [.getGlobal index, .pop]
  have hend := Instruction.decodeAt_sizeAll [.getGlobal index, .pop]
  generalize (encodeAll [.getGlobal index, .pop]).toArray = code at hplaced hend
  let closure : Closure := ⟨identity, ⟨identity, code, 0, 0⟩, []⟩
  let start := Machine.load ⟨code, constants⟩ globals none identity journal
  -- The first instruction pushes the global.
  have hread : Leads start 1 (fun m => ∃ m₁ : Machine, m = m₁.withStack [globals.get index.toNat] ∧
      m₁.frames = [⟨closure, 3, 0⟩] ∧ m₁.budget = none) fun _ _ => False := by
    refine Leads.execute rfl hplaced.decodeAt nofun fun budget journal hbudget => ?_
    let past := start.past ⟨closure, 0, 0⟩ [] (.getGlobal index) budget journal
    show Lands _ _ (Exec.push (globals.get index.toNat) (past.withStack []))
    rw [Exec.push_of_lt _ (by decide)]
    exact ⟨past, rfl, rfl, hbudget rfl⟩
  -- The second one discards it, and the value that was discarded last is the
  -- answer.
  have hpop : Leads start (1 + 1) (fun m => Exec.step m = .ok false m ∧
      m.lastPopped = globals.get index.toNat) fun _ _ => False := by
    refine hread.bind fun m hm => ?_
    obtain ⟨m₁, rfl, hframes, hbudget⟩ := hm
    refine Leads.execute hframes hplaced.tail.decodeAt ?_ fun budget journal _ => ?_
    · intro hspent
      rw [show (m₁.withStack _).budget = none from hbudget] at hspent
      cases hspent
    · let past := m₁.past ⟨closure, 3, 0⟩ [] .pop budget journal
      show Lands _ _ ((do
        let v ← Exec.pop
        modify fun m : Machine => { m with lastPopped := v })
          (past.withStack ([] ++ [globals.get index.toNat])))
      have hroom : ([] ++ [globals.get index.toNat]).length ≤ stackSize :=
        show 1 ≤ stackSize by decide
      rw [Exec.bind_of_ok _ (Exec.pop_append _ hroom)]
      exact ⟨Exec.step_of_end rfl hend, rfl⟩
  obtain ⟨n, m, -, hpath, ⟨hstep, hvalue⟩ | ⟨_, _, _, _, _, hfalse⟩⟩ := hpop
  · exact ⟨m, .ends hpath hstep, hvalue⟩
  · exact hfalse.elim

namespace Session

variable {s s' : Session} {journal : Journal} {program : List Stmt} {bytecode : Bytecode}

/-- **The name of a global evaluates to what is in the global's slot.** -/
theorem Sound.eval_global (hs : s.Sound) (hpersistent : s.config.persistent = true)
    (hbudget : s.config.budget = none) (haddressed : s.symbols.inner.Addressed) {name : String}
    {x : Symbol} (hfind : s.symbols.inner.find? name = some x) (hglobal : x.storage = .global)
    (journal : Journal) (span place : Span) :
    (s.eval journal [.expr (.ident name span) place]).result = .ok (s.globals.get x.index) := by
  have hlt := haddressed.index_lt hfind hglobal
  have hload : x.load? = some (.getGlobal (UInt16.ofNat x.index)) := by
    rw [Symbol.load?, hglobal]
    exact if_pos hlt
  have hw : Writes ⟨s.symbols, s.constants⟩ 0 (.stmts [.expr (.ident name span) place])
      [.getGlobal (UInt16.ofNat x.index), .pop] ⟨s.symbols, s.constants⟩ :=
    .stmtsCons (.stmtExpr (.ident (SymbolTable.resolve_of_find? hs.outer hfind) hload)) .stmtsNil
  obtain ⟨c, hc, hsetting, hbytecode⟩ := hw.compile hs.outer
  have hcompile : s.compile [.expr (.ident name span) place] =
      (.ok ⟨(encodeAll [.getGlobal (UInt16.ofNat x.index), .pop]).toArray, s.constants⟩, s) := by
    have hsymbols : c.symbols = s.symbols := congrArg Setting.symbols hsetting
    have hconstants : c.constants = s.constants := congrArg Setting.constants hsetting
    unfold Session.compile
    rw [prepared_of_persistent hpersistent]
    dsimp only
    rw [hc]
    dsimp only
    rw [hbytecode, hsymbols, hconstants]
  obtain ⟨outcome, m, hfinishes, hrun, -⟩ :=
    hs.run hcompile s.config.budget s.nextIdentity (journal.record fun _ => .compiled _ _ _)
  obtain ⟨m', hfinishes', hvalue⟩ :=
    Finishes.of_getGlobal s.constants s.globals s.nextIdentity _ (UInt16.ofNat x.index)
  -- A run has one end only, so that the machine's own run is the one that reads the global.
  rw [hbudget] at hfinishes
  obtain ⟨rfl, rfl⟩ := hfinishes.unique hfinishes'
  rw [(eval_of_run hcompile hrun).1, Except.mapError, Except.map, hvalue,
    UInt16.toNat_ofNat_of_lt' hlt]

/-- The name that a source consists of, if it is nothing but a name. -/
def nameOf? (source : String) : Option String :=
  match parse source with
  | .ok [.expr (.ident name _) _] => some name
  | _ => none

/-- **A global is answered by its value.** This is what can be asked of a
session to see a global, and nothing in it can fail when there is no budget. -/
theorem Sound.evalSource_global (hs : s.Sound) (hpersistent : s.config.persistent = true)
    (hbudget : s.config.budget = none) (haddressed : s.symbols.inner.Addressed)
    {name source : String} {x : Symbol} (hsource : nameOf? source = some name)
    (hfind : s.symbols.inner.find? name = some x) (hglobal : x.storage = .global)
    (journal : Journal) :
    (s.evalSource journal source).result = .ok (s.globals.get x.index) := by
  unfold nameOf? at hsource
  split at hsource
  · next hparse =>
    cases hsource
    rw [Session.evalSource, hparse]
    exact hs.eval_global hpersistent hbudget haddressed hfind hglobal journal _ _
  · cases hsource

/-! ## Failures of the run -/

theorem config_prepared (s : Session) : s.prepared.config = s.config := by
  unfold Session.prepared
  split <;> rfl

theorem config_compile (s : Session) (program : List Stmt) :
    (s.compile program).2.config = s.config := by
  unfold Session.compile
  dsimp only
  split <;> exact config_prepared s

/-- A session keeps its configuration. -/
theorem Reachable.config_eq {config : SessionConfig} (h : Reachable config s) :
    s.config = config := by
  refine h.invariant (P := fun s => s.config = config) rfl
    (fun s program h => (config_compile s program).trans h) ?_ fun _ h => h
  intro s journal program h
  obtain ⟨globals, identity, hsession⟩ := session_eval s journal program
  rw [hsession]
  exact (config_compile s program).trans h

/-- **The names after a program that compiles**: a global that it does not bind
again is where it was. -/
theorem Sound.find?_global (hs : s.Sound) (hpersistent : s.config.persistent = true)
    (hcompile : s.compile program = (.ok bytecode, s')) {name : String} {x : Symbol}
    (hfind : s.symbols.inner.find? name = some x) (hglobal : x.storage = .global)
    (hname : name ∉ boundNames program) : s'.symbols.inner.find? name = some x := by
  obtain ⟨is, hw, -, -⟩ := hs.compile hcompile
  rw [prepared_of_persistent hpersistent] at hw
  exact hw.find?_global hs.coherent hs.outer hfind hglobal hname

/-- **A program that fails while it runs** has been compiled, and if the session
is atomic, it has the globals from before. -/
theorem Sound.compile_of_runtime_error {cause : Halt} (hs : s.Sound)
    (hpersistent : s.config.persistent = true) (hatomic : s.config.atomic = true)
    (hfail : (s.eval journal program).error? = some (.runtime cause)) :
    (∃ bytecode s', s.compile program = (.ok bytecode, s')) ∧
      (s.eval journal program).session.globals = s.globals := by
  have hresult := Report.result_of_error? hfail
  cases hcompile : s.compile program with
  | mk compiled s' =>
    cases compiled with
    | error e =>
      rw [Session.eval, hcompile] at hresult
      cases hresult
    | ok bytecode =>
      refine ⟨⟨bytecode, s', rfl⟩, ?_⟩
      obtain ⟨-, -, -, hs'⟩ := hs.compile hcompile
      rw [prepared_of_persistent hpersistent] at hs'
      obtain ⟨outcome, m, -, hrun, -⟩ := hs.run hcompile s'.config.budget s'.nextIdentity
        (journal.record fun _ => .compiled _ _ _)
      obtain ⟨hvalue, -, hsession⟩ := eval_of_run hcompile hrun
      cases outcome with
      | ok =>
        rw [hvalue] at hresult
        cases hresult
      | error cause =>
        rw [hsession, hs', hatomic]
        rfl

/-- **A program that fails while it runs, in an atomic session, leaves the
globals as they were.** A name that was bound to a global evaluates to the value
it had before, unless the program binds it again at the top level. -/
theorem failed_run_keeps_globals {config : SessionConfig} (h : Reachable config s)
    (hpersistent : config.persistent = true) (hatomic : config.atomic = true)
    (hbudget : config.budget = none) (journal : Journal) (program : List Stmt) {cause : Halt}
    (hfail : (s.eval journal program).error? = some (.runtime cause)) :
    let after := (s.eval journal program).session
    after.globals = s.globals ∧
      ∀ name x, s.symbols.inner.find? name = some x → x.storage = .global →
        name ∉ boundNames program → ∀ source, nameOf? source = some name → ∀ journal',
          (s.evalSource journal' source).result = .ok (s.globals.get x.index) ∧
          (after.evalSource journal' source).result = .ok (s.globals.get x.index) := by
  intro after
  have hafter : Reachable config after := h.eval journal program
  obtain rfl := h.config_eq
  obtain ⟨⟨bytecode, s', hcompile⟩, hglobals⟩ :=
    h.sound.compile_of_runtime_error hpersistent hatomic hfail
  refine ⟨hglobals, fun name x hfind hglobal hname source hsource journal' => ⟨?_, ?_⟩⟩
  · exact h.sound.evalSource_global hpersistent hbudget h.compiler.addressed hsource hfind hglobal _
  · -- Afterwards the name still has its slot, and the slot has its value again.
    have hfind' : after.symbols.inner.find? name = some x := by
      obtain ⟨globals, identity, hsession⟩ := session_eval s journal program
      rw [show after = _ from hsession, hcompile]
      exact h.sound.find?_global hpersistent hcompile hfind hglobal hname
    rw [← hafter.config_eq] at hpersistent hbudget
    rw [← hglobals]
    exact hafter.sound.evalSource_global hpersistent hbudget hafter.compiler.addressed
      hsource hfind'
      hglobal _

/-- The failed program has bound another name again and a third one in a branch
that was not taken. The first name has its value still. -/
theorem failed_run_keeps_globals_of_other_names :
    let s := ((Session.start { atomic := true }).evalSource (.empty false)
      "let a = [1]; let b = fn() { a };").session
    let program := (parse "let b = b(); if (false) { let c = a; }; puts(b); a + b").toOption.getD []
    let after := (s.eval (.empty false) program).session
    ((s.eval (.empty false) program).error?.map SessionError.beforeRun = some false) ∧
      after.globals = s.globals ∧
      (s.evalSource (.empty false) "a").result = .ok (s.globals.get 0) ∧
      (after.evalSource (.empty false) "a").result = .ok (s.globals.get 0) := by
  intro s program after
  have hs : Reachable { atomic := true } s := .evalSource _ _ .start
  have herror : (s.eval (.empty false) program).error?.map SessionError.beforeRun = some false := by
    decide +kernel
  obtain ⟨e, hfail, hruntime⟩ := Option.map_eq_some_iff.1 herror
  cases e with
  | parse | compile => cases hruntime
  | runtime cause =>
    obtain ⟨hglobals, hnames⟩ :=
      failed_run_keeps_globals hs rfl rfl rfl (.empty false) program hfail
    exact ⟨herror, hglobals, hnames "a" ⟨"a", .global, 0⟩ (by decide +kernel) rfl
      (by decide +kernel) "a" (by decide +kernel) (.empty false)⟩

/-- **A name that a failed program has bound again is lost**: before the program
it stood for a number, and now it stands for a variable that was never set. -/
theorem rebound_name_is_lost :
    let s := ((Session.start { atomic := true }).evalSource (.empty false) "let a = 1;").session
    let failed := s.evalSource (.empty false) "let a = 2; a + true"
    (s.evalSource (.empty false) "a").result.toOption.map Value.text = some "1" ∧
      failed.error?.map SessionError.beforeRun = some false ∧
      failed.session.globals.size = s.globals.size ∧
      (failed.session.evalSource (.empty false) "a").result.toOption.map Value.type =
        some .null := by
  decide +kernel

end Session

end StackScript
