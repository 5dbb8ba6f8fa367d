import StackScript.Proofs.Compiler.Operands
import StackScript.Proofs.Machine.Globals
import StackScript.Proofs.Session.Failure

/-!
# What a session carries from program to program

Names, constants and globals refer to each other by number: a name to a slot of
the globals, and the code of a closure that some global holds to places in the
pool of constants. A session carries all three on, through programs that do not
compile, programs that fail while they run, and requests to forget everything.
`Session.Consistent` says what holds of the three together whatever has
happened, and `Session.state_is_consistent` that it does.

Two of its parts need a history. Which names hide builtin functions depends on
the programs that were compiled since everything was last forgotten, so the
states of a session are taken together with the names that are bound in them
(`Session.Served`). And the globals are no more than the names have slots for,
because code sets only globals that were counted when it was compiled
(`Session.Reachable.size_globals_le`).
-/

namespace StackScript

open Instruction (encodeAll)

/-! ## Functions and constants -/

section

variable {pool : Array Value} {body : Routine} {f : Lambda} {names : List String}

/-- The code of a compiled function refers to the constants that there are by
now. -/
theorem Compiled.linked (h : Compiled pool body f names) : body.code.Linked pool := by
  cases h with
  | intro ht hw hpool => exact (hw.linked_body ht).mono hpool

/-- Code of a function sets no globals: a binding in a function is a variable of
its frame. -/
theorem Compiled.setsNone (h : Compiled pool body f names) : body.code.SetsBelow 0 := by
  cases h with
  | intro ht hw => exact hw.setsBelow_body ht

/-- So no function in the pool sets any, whatever the bound on globals is. -/
theorem PoolSound.setsBelow (h : PoolSound pool) (bound : Nat) :
    ∀ v ∈ pool.toList, v.Bodies fun body => body.code.SetsBelow bound := by
  intro v hv
  have hconstant := h.constants v hv
  cases v with
  | number n => exact .number n
  | string s => exact .string s
  | routine body => exact .routine ((h.setsNone body hv).mono (Nat.zero_le _))
  | _ => cases hconstant

end

/-- **Between two programs, the pool of constants is sound.** -/
theorem Compiler.Reached.pool {c : Compiler} (h : Reached c) : PoolSound c.constants := by
  induction h with
  | initial => exact .empty
  | compile h hcompile ih =>
    obtain ⟨is, hw, -⟩ := h.level.1.laid hcompile
    exact hw.pool h.coherent ih
  | restate _ ih => exact ih

namespace Session

variable {config : SessionConfig} {s s' : Session} {journal : Journal} {program : List Stmt}
  {bytecode : Bytecode} {names : List String}

/-! ## Globals -/

/-- A session that has compiled a program, and not run it, is one that comes
about. -/
theorem Reachable.of_compile (h : Reachable config s)
    (hcompile : s.compile program = (.ok bytecode, s')) :
    Reachable config s' := by
  have hs' := h.compile program
  rw [hcompile] at hs'
  exact hs'

/-- **A run is confined to the globals that have been counted**, if it begins
with no more. -/
theorem Reachable.confined_load (h : Reachable config s)
    (hcompile : s.compile program = (.ok bytecode, s'))
    (hsize : s'.globals.size ≤ s'.symbols.inner.definitions) (budget : Option Nat) (identity : Nat)
    (journal : Journal) :
    (Machine.load bytecode s'.globals budget identity journal).Confined
      s'.symbols.inner.definitions := by
  have hs' := h.of_compile hcompile
  have hstands := h.stands_load hcompile budget identity journal
  obtain ⟨is, hw, rfl, -⟩ := h.sound.compile hcompile
  have hcode : Code.SetsBelow s'.symbols.inner.definitions (encodeAll is).toArray :=
    Code.setsBelow_encodeAll fun n hn => (hw.refers h.sound.prepared.coherent _ hn).sets.2
  refine ⟨hstands, .of_at ⟨rfl, rfl, hs'.compiler.pool.setsBelow _, ?_, ?_⟩ ?_, hsize⟩
  · exact fun v hv => List.eq_of_mem_replicate hv ▸ .null
  · exact hs'.sound.bodies_globals fun _ _ _ hbody => hbody.setsNone.mono (Nat.zero_le _)
  · exact List.forall_mem_singleton.2 (.closure hcode nofun)

/-- A session that forgets everything before a program forgets its names and its
globals. -/
theorem size_globals_prepared (h : s.globals.size ≤ s.symbols.inner.definitions) :
    s.prepared.globals.size ≤ s.prepared.symbols.inner.definitions := by
  unfold Session.prepared
  split
  · exact h
  · exact Nat.zero_le _

/-- Compiling adds names at most. The globals are as they were. -/
theorem Reachable.size_globals_compile (h : Reachable config s)
    (hsize : s.globals.size ≤ s.symbols.inner.definitions) (program : List Stmt) :
    (s.compile program).2.globals.size ≤ (s.compile program).2.symbols.inner.definitions := by
  have hprepared := size_globals_prepared hsize
  cases hcompile : s.compile program with
  | mk result s' =>
    cases result with
    | error e =>
      rw [session_of_compile_error hcompile]
      exact hprepared
    | ok bytecode =>
      obtain ⟨is, hw, -, hs'⟩ := h.sound.compile hcompile
      have hglobals : s'.globals = s.prepared.globals := by rw [hs']
      dsimp only
      rw [hglobals]
      exact hprepared.trans (hw.extends h.sound.prepared.coherent).definitions

/-- **A program sets no globals but those it has names for**, whether its run
succeeds or fails. An atomic session that puts the globals back has no more of
them. -/
theorem Reachable.size_globals_eval (h : Reachable config s)
    (hsize : s.globals.size ≤ s.symbols.inner.definitions) (journal : Journal)
    (program : List Stmt) :
    (s.eval journal program).session.globals.size ≤
      (s.eval journal program).session.symbols.inner.definitions := by
  have hcompiled := h.size_globals_compile hsize program
  cases hcompile : s.compile program with
  | mk result s' =>
    rw [hcompile] at hcompiled
    cases result with
    | error e =>
      rw [Session.eval, hcompile]
      exact hcompiled
    | ok bytecode =>
      obtain ⟨outcome, m, hfinishes, hrun, -⟩ := h.sound.run hcompile s'.config.budget
        s'.nextIdentity (journal.record fun _ =>
          .compiled program.length bytecode.code.size bytecode.constants.size)
      have hrest := hfinishes.size_globals_le (h.confined_load hcompile hcompiled _ _ _)
      rw [(eval_of_run hcompile hrun).2.2]
      dsimp only
      split
      · exact hrest
      · exact hcompiled

/-- **There are no more globals than the names have slots for.** -/
theorem Reachable.size_globals_le (h : Reachable config s) :
    s.globals.size ≤ s.symbols.inner.definitions := by
  have hboth := h.invariant
    (P := fun s => Reachable config s ∧ s.globals.size ≤ s.symbols.inner.definitions)
    ⟨.start, Nat.zero_le _⟩
    (fun s program hs => ⟨hs.1.compile program, hs.1.size_globals_compile hs.2 program⟩)
    (fun s journal program hs =>
      ⟨hs.1.eval journal program, hs.1.size_globals_eval hs.2 journal program⟩)
    fun s hs => ⟨hs.1.reset, Nat.zero_le _⟩
  exact hboth.2

/-! ## Names -/

/-- **The names that are bound at the top level**, the latest first: they are
globals, and behind them there are only the builtin functions. -/
structure Bound (s : Session) (names : List String) : Prop where
  /-- Only globals have been bound. -/
  globals : SymbolTable.initial.inner.BindsGlobals s.symbols.inner
  /-- Their names. -/
  names : s.symbols.inner.own.map Prod.fst = names

theorem bound_reset (s : Session) : s.reset.Bound [] := ⟨.refl _, rfl⟩

/-- The names that are bound after a program, given those before it. -/
def boundBy (s : Session) (names : List String) (program : List Stmt) : List String :=
  let before := if s.config.persistent then names else []
  if (s.compile program).1.isOk then boundNames program ++ before else before

/-- A session that keeps nothing has no names bound when the next program
comes. -/
theorem Bound.prepared (h : s.Bound names) :
    s.prepared.Bound (if s.config.persistent then names else []) := by
  unfold Session.prepared
  split
  · exact h
  · exact bound_reset s

/-- **A program that compiles binds its names**, and one that does not compile
binds none. -/
theorem Bound.compile (h : s.Bound names) (hs : s.Sound) (program : List Stmt) :
    (s.compile program).2.Bound (s.boundBy names program) := by
  unfold boundBy
  cases hcompile : s.compile program with
  | mk result s' =>
    cases result with
    | error e =>
      rw [session_of_compile_error hcompile]
      exact h.prepared
    | ok bytecode =>
      obtain ⟨is, hw, -, -⟩ := hs.compile hcompile
      have hext := hw.extends hs.prepared.coherent
      have hglobals := hw.bindsGlobals
      rw [SymbolTable.top, SymbolTable.top, hs.prepared.outer,
        (hs.compiled hcompile).outer] at hglobals
      obtain ⟨added, hadded, hnames, -⟩ :=
        (Names.additive_skipBlock program).adds s.prepared.symbols.inner.names
      refine ⟨h.prepared.globals.trans hglobals, ?_⟩
      have hown : s'.symbols.inner.own = added ++ s.prepared.symbols.inner.own :=
        (congrArg Names.bound hext.names).trans hadded
      rw [hown, List.map_append, hnames, h.prepared.names]
      rfl

/-- Behind the names that are bound there are the builtin functions. -/
theorem Bound.bindings (h : s.Bound names) :
    ∃ globals, s.symbols.inner.bindings = globals ++ SymbolTable.initial.inner.bindings ∧
      (∀ x ∈ globals, x.storage = .global) ∧ globals.map Symbol.name = names := by
  obtain ⟨globals, hbindings, hglobal⟩ := h.globals
  refine ⟨globals, hbindings, hglobal, ?_⟩
  have hown : globals.filterMap (fun x => x.binder?.map (x.name, ·)) =
      globals.map fun x => (x.name, .site x.index) := by
    rw [← List.filterMap_eq_map]
    refine List.filterMap_congr fun x hx => ?_
    rw [Symbol.binder?_of_global (hglobal x hx)]
    rfl
  rw [← h.names, Scope.own, hbindings, List.filterMap_append, hown,
    show SymbolTable.initial.inner.bindings.filterMap _ = [] from rfl, List.append_nil,
    List.map_map]
  rfl

/-- A name that is bound is found as a global. -/
theorem Bound.find?_of_mem (h : s.Bound names) {name : String} (hname : name ∈ names) :
    ∃ index, s.symbols.inner.find? name = some ⟨name, .global, index⟩ := by
  obtain ⟨globals, hbindings, hglobal, rfl⟩ := h.bindings
  obtain ⟨x, hx, rfl⟩ := List.mem_map.1 hname
  have hsome : (globals.find? fun y => y.name == x.name).isSome = true :=
    List.find?_isSome.2 ⟨x, hx, BEq.refl _⟩
  obtain ⟨y, hy⟩ := Option.isSome_iff_exists.1 hsome
  have hfound := List.find?_some hy
  have hyname : y.name = x.name := eq_of_beq hfound
  refine ⟨y.index, ?_⟩
  rw [Scope.find?, hbindings, List.find?_append, hy, Option.some_or, ← hyname,
    ← hglobal y (List.mem_of_find?_eq_some hy)]

/-- A name that is not bound is found if it is the name of a builtin
function. -/
theorem Bound.find?_of_not_mem (h : s.Bound names) {name : String} (hname : name ∉ names) :
    s.symbols.inner.find? name = SymbolTable.initial.inner.find? name := by
  obtain ⟨globals, hbindings, -, rfl⟩ := h.bindings
  have hnone : (globals.find? fun x => x.name == name) = none := by
    refine List.find?_eq_none.2 fun x hx => ?_
    rw [beq_iff_eq]
    rintro rfl
    exact hname (List.mem_map_of_mem hx)
  rw [Scope.find?, hbindings, List.find?_append, hnone, Option.none_or]
  rfl

/-- In the beginning each builtin function is found under its name. -/
theorem find?_initial {index : Nat} {b : Builtin} (h : Builtin.ofIndex? index = some b) :
    SymbolTable.initial.inner.find? b.name = some ⟨b.name, .builtin, index⟩ := by
  have hall : ∀ x ∈ Builtin.all.zipIdx,
      SymbolTable.initial.inner.find? x.1.name = some ⟨x.1.name, .builtin, x.2⟩ := by
    decide +kernel
  exact hall (b, index) (List.mk_mem_zipIdx_iff_getElem?.2 h)

/-! ## Requests -/

end Session

/-- **The program that a request is about**, if it is about one that can be
read. -/
def Request.program? : Request → Option (List Stmt)
  | compileSource source | evalSource source | evalLine source => (parse source).toOption
  | reset => none

namespace Session

variable {config : SessionConfig} {s : Session} {journal : Journal} {request : Request}
  {program : List Stmt} {names : List String}

/-- A request that is about no program changes nothing, unless it is to forget
everything. -/
theorem session_answer_of_none (hrequest : request ≠ .reset) (h : request.program? = none) :
    (s.answer journal request).session = s := by
  cases request with
  | reset => exact (hrequest rfl).elim
  | compileSource source | evalSource source | evalLine source =>
    cases hparse : parse source with
    | ok program =>
      rw [Request.program?, hparse] at h
      cases h
    | error errors =>
      simp only [Session.answer, Session.compileSource, Session.evalSource, Session.evalLine,
        Report.map, hparse]

/-- Of what compiling a program leaves, a request that is about it changes the
globals at most, and it uses up identities. -/
theorem session_answer_of_some (h : request.program? = some program) :
    ∃ globals nextIdentity, (s.answer journal request).session =
      { (s.compile program).2 with globals, nextIdentity } := by
  cases request with
  | reset => cases h
  | evalSource source | evalLine source =>
    cases hparse : parse source with
    | error errors =>
      rw [Request.program?, hparse] at h
      cases h
    | ok program =>
      rw [Request.program?, hparse] at h
      cases h
      simp only [Session.answer, Session.evalSource, Session.evalLine, Report.map, hparse]
      exact session_eval s journal _
  | compileSource source =>
    cases hparse : parse source with
    | error errors =>
      rw [Request.program?, hparse] at h
      cases h
    | ok program =>
      rw [Request.program?, hparse] at h
      cases h
      simp only [Session.answer, Session.compileSource, Report.map, hparse]
      split
      · next hcompile => rw [hcompile]; exact ⟨_, _, rfl⟩
      · next hcompile => rw [hcompile]; exact ⟨_, _, rfl⟩

/-- **The names that are bound after a request**, given those before it. -/
def boundAfter (s : Session) (names : List String) (request : Request) : List String :=
  match request, request.program? with
  | .reset, _ => []
  | _, none => names
  | _, some program => s.boundBy names program

/-- **The states of a session that answers requests**, with the names that are
bound in them. -/
inductive Served (config : SessionConfig) : List String → Session → Prop where
  | start : Served config [] (Session.start config)
  | answer {names : List String} {s : Session} (journal : Journal) (request : Request) :
      Served config names s →
      Served config (s.boundAfter names request) (s.answer journal request).session

/-- Whatever requests have been answered, the session is one that comes about.
What is known of those holds here too. -/
theorem Served.reachable (h : Served config names s) : Reachable config s := by
  induction h with
  | start => exact .start
  | answer journal request _ ih =>
    cases request with
    | compileSource source => exact ih.compileSource journal source
    | evalSource source => exact ih.evalSource journal source
    | evalLine source => exact ih.evalLine journal source
    | reset => exact ih.reset

/-- The names that the requests account for are those that are bound. They are
counted from the programs alone. -/
theorem Served.bound (h : Served config names s) : s.Bound names := by
  induction h with
  | start => exact bound_reset (Session.start config)
  | @answer names s journal request h ih =>
    by_cases hreset : request = .reset
    · subst hreset
      exact bound_reset s
    · cases hprogram : request.program? with
      | none =>
        have hnames : s.boundAfter names request = names := by
          cases request <;> simp_all [boundAfter]
        rw [hnames, session_answer_of_none hreset hprogram]
        exact ih
      | some program =>
        have hnames : s.boundAfter names request = s.boundBy names program := by
          cases request <;> simp_all [boundAfter]
        obtain ⟨globals, identity, hsession⟩ := session_answer_of_some (s := s) hprogram
        have hbound := ih.compile h.reachable.sound program
        rw [hnames, hsession]
        exact ⟨hbound.globals, hbound.names⟩

/-! ## Consistency -/

/-- **What a session carries fits together**, while some names are bound at its
top level. -/
structure Consistent (s : Session) (names : List String) : Prop where
  /-- No function is open. -/
  outer : s.symbols.outer = []
  /-- A builtin function that no name hides is found under its index. -/
  builtin : ∀ index b, Builtin.ofIndex? index = some b → b.name ∉ names →
    s.symbols.resolve b.name = some (⟨b.name, .builtin, index⟩, s.symbols)
  /-- A name that is bound is found as a global that has been counted. -/
  bound : ∀ name ∈ names, ∃ index < s.symbols.inner.definitions,
    s.symbols.resolve name = some (⟨name, .global, index⟩, s.symbols)
  /-- No global exists that has not been counted. -/
  globals : s.globals.size ≤ s.symbols.inner.definitions
  /-- Every global has a slot that an operand can name. -/
  definitions : s.symbols.inner.definitions ≤ 65536
  /-- The constants are few enough, of the right kinds and without repetition,
  and the code of all routines refers to them. -/
  pool : PoolSound s.constants
  /-- The code of all functions that the globals lead to refers to the same
  constants. -/
  closures : ∀ v ∈ s.globals.slots.toList, v.Bodies fun body => body.code.Linked s.constants

/-- **A session is consistent whatever has happened**: each part follows from
what holds of all sessions that come about, or from the names that are bound. -/
theorem Served.consistent (h : Served config names s) : s.Consistent names where
  outer := h.reachable.sound.outer
  builtin _ _ hb hname := by
    refine SymbolTable.resolve_of_find? h.reachable.sound.outer ?_
    rw [h.bound.find?_of_not_mem hname, find?_initial hb]
  bound _ hname := by
    obtain ⟨index, hfind⟩ := h.bound.find?_of_mem hname
    exact ⟨index, h.reachable.compiler.addressed.index_lt_definitions hfind rfl,
      SymbolTable.resolve_of_find? h.reachable.sound.outer hfind⟩
  globals := h.reachable.size_globals_le
  definitions := h.reachable.compiler.addressed.definitions
  pool := h.reachable.compiler.pool
  closures := h.reachable.sound.bodies_globals fun _ _ _ hbody => hbody.linked

/-- Constants are only added, so that code compiled earlier finds its own at
their places. -/
theorem prefix_constants_compile (hpersistent : s.config.persistent = true) (program : List Stmt) :
    s.constants.toList <+: (s.compile program).2.constants.toList := by
  have hprefix := Compiler.prefix_compile (.withState s.symbols s.constants) program
  unfold Session.compile
  rw [prepared_of_persistent hpersistent]
  dsimp only
  split
  · next hc =>
    have htake := Compiler.take_constants (.withState s.symbols s.constants) program
    rw [hc] at htake
    exact htake ▸ List.prefix_refl _
  · next hc =>
    rw [hc] at hprefix
    exact hprefix

/-- **What a session carries is consistent**, whatever it has been asked for and
however that went; and a session that keeps what programs leave behind adds
constants only at the end of its pool, unless it is told to forget them. -/
theorem state_is_consistent (h : Served config names s) :
    s.Consistent names ∧
      (config.persistent = true → ∀ journal request, request ≠ .reset →
        s.constants.toList <+: (s.answer journal request).session.constants.toList) := by
  refine ⟨h.consistent, fun hpersistent journal request hrequest => ?_⟩
  rw [← h.reachable.config_eq] at hpersistent
  cases hprogram : request.program? with
  | none => rw [session_answer_of_none hrequest hprogram]
  | some program =>
    obtain ⟨globals, identity, hsession⟩ := session_answer_of_some (s := s) hprogram
    rw [hsession]
    exact prefix_constants_compile hpersistent program

/-- A builtin function has been hidden, a program has not compiled, and another
has failed on its way, with one of its names still to be set. There are five
names and four globals. -/
theorem state_is_consistent_after_failures :
    let bind := Request.evalSource
      "let t = \"1\"; let len = fn(x) { fn() { [x, t, 2, 1] } }; let g = len(1);"
    let lost := Request.evalSource "let h = fn() { 3 + missing };"
    let halted := Request.evalLine "let a = g(); a + true; let b = 2;"
    let s₁ := ((Session.start {}).answer (.empty false) bind).session
    let s₂ := (s₁.answer (.empty false) lost).session
    let s₃ := (s₂.answer (.empty false) halted).session
    Served {} ["b", "a", "g", "len", "t"] s₃ ∧ s₃.globals.size = 4 ∧
      s₃.symbols.inner.definitions = 5 ∧
      s₃.Consistent ["b", "a", "g", "len", "t"] ∧
      s₃.constants.toList <+:
        (s₃.answer (.empty false) (.evalLine "len(7)()")).session.constants.toList := by
  intro bind lost halted s₁ s₂ s₃
  have hs : Served {} ["b", "a", "g", "len", "t"] s₃ := by
    have h₃ : Served {} _ s₃ := .answer _ halted (.answer _ lost (.answer _ bind .start))
    have hnames :
        s₂.boundAfter (s₁.boundAfter ((Session.start {}).boundAfter [] bind) lost) halted =
          ["b", "a", "g", "len", "t"] := by
      decide +kernel
    exact hnames ▸ h₃
  obtain ⟨hconsistent, hprefix⟩ := state_is_consistent hs
  exact ⟨hs, by decide +kernel, by decide +kernel, hconsistent, hprefix rfl _ _ nofun⟩

end Session

end StackScript
