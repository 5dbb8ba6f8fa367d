import StackScript.Proofs.Compiler.Completeness
import StackScript.Proofs.Compiler.Demand

/-!
# Which programs compile

A program compiles if and only if it is admissible
(`Compiler.accepts_exactly_admissible`). Nothing in the definition of admissible
programs mentions the compiler, so this says what the compiler refuses: names
that cannot be seen, `return` at the top level, numbers that are not finite, and
what does not fit into an operand.

That what compiles is allowed where it stands is read off the code of each
phrase, which has the size that the phrase demands (`Writes.throughout`). For
the converse, a phrase is compiled from its parts
(`Occurrence.writable_of_parts`). This needs **room** (`Room`): what has been
captured and interned so far, and what the phrase demands, have to fit together.
A phrase that has been compiled leaves room for those after it, because it has
added exactly what it demands (`Room.rest`).
-/

namespace StackScript

open Instruction (sizeAll)

/-! ## What compiles is allowed -/

section

variable {c c' : Setting} {start : Nat} {p : Phrase} {is : List Instruction}

/-- Names that are captured once each are as many as the captures. -/
theorem Scope.card_captured {s : Scope} (h : (s.captures.toList.map Symbol.name).Nodup) :
    s.captured.card = s.captures.size := by
  rw [captured, List.toFinset_card_of_nodup h, List.length_map, Array.length_toList]

/-- So it is in every table that comes about: no name is captured twice. -/
theorem SymbolTable.Reachable.card_captured {t : SymbolTable} (h : t.Reachable) :
    t.inner.captured.card = t.inner.captures.size :=
  Scope.card_captured h.wired.kept.once

/-- A function stays a function. -/
theorem Setting.Extends.room {ns : Names} (h : c.Extends ns c') :
    c'.symbols.view.room = c.symbols.view.room := by
  have hempty : c'.symbols.outer.isEmpty = c.symbols.outer.isEmpty := by
    have hlen := h.outer.length_eq
    rw [Bool.eq_iff_iff, List.isEmpty_iff_length_eq_zero, List.isEmpty_iff_length_eq_zero, hlen]
  unfold View.room
  rw [SymbolTable.inFunction_view, SymbolTable.inFunction_view, SymbolTable.isGlobal, hempty]
  rfl

/-- Inside of a function there is room for as many variables as one byte can
number. -/
theorem SymbolTable.room_of_outer {t : SymbolTable} (h : t.outer ≠ []) : t.view.room = 256 := by
  have hfunction : t.view.inFunction = true := by
    rw [inFunction_view, isGlobal, List.isEmpty_eq_false_iff.2 h]
    rfl
  exact if_pos hfunction

/-- **There are no more variables than a function can have.** -/
def Setting.Roomy (c : Setting) : Prop := c.symbols.inner.definitions ≤ c.symbols.view.room

/-- Code that binds nothing leaves the room as it was. -/
theorem Setting.Extends.roomy (h : c.Extends c.symbols.inner.names c') (hc : c.Roomy) :
    c'.Roomy := by
  have hdefinitions : c'.symbols.inner.definitions = c.symbols.inner.definitions :=
    congrArg Names.sites h.names
  rw [Setting.Roomy, hdefinitions, h.room]
  exact hc

/-- A variable that can be set is within the limit. -/
theorem SymbolTable.lt_room_of_store? {t : SymbolTable} {name : String} {i : Instruction}
    (h : (t.define name).1.store? = some i) : t.inner.definitions < t.view.room := by
  obtain ⟨inner, outer⟩ := t
  cases outer with
  | nil | cons => exact (Option.ite_none_right_eq_some.1 h).1

/-- **Code that has been written was within the room**: every binding in it has
a number that an operand can hold. -/
theorem Writes.roomy (h : Writes c start p is c') (hc : c.symbols.Coherent) (hroomy : c.Roomy) :
    c'.Roomy := by
  induction h with
  | ident hresolve =>
    obtain ⟨hcoherent, hinner, houter, -⟩ := hc.resolve hresolve
    exact (Setting.Extends.of_grows hcoherent hinner houter).roomy hroomy
  | number _ hintern | string hintern => exact (Setting.Extends.of_intern hc hintern).roomy hroomy
  | boolean | exprsNil | pairsNil | branchNil | bodyNil | stmtsNil => exact hroomy
  | unary _ ih | array _ _ ih | map _ _ ih | branchExpr _ ih | bodyExpr _ ih | bodyRet _ _ ih
  | stmtExpr _ ih | stmtRet _ _ ih => exact ih hc hroomy
  | stmtBind h hstore ih =>
    have hcoherent := (h.extends hc).coherent
    rw [Setting.Roomy, (Setting.Extends.define hcoherent _).room]
    exact SymbolTable.lt_room_of_store? hstore
  | less h₁ _ ih₁ ih₂ | binary _ h₁ _ ih₁ ih₂ | call h₁ _ _ ih₁ ih₂ | index h₁ _ ih₁ ih₂
  | exprsCons h₁ _ ih₁ ih₂ | branchCons _ h₁ _ ih₁ ih₂ | bodyCons _ h₁ _ ih₁ ih₂
  | stmtsCons h₁ _ ih₁ ih₂ => exact ih₂ (h₁.extends hc).coherent (ih₁ hc hroomy)
  | cond h₁ h₂ _ _ _ _ _ ih₁ ih₂ ih₃ | pairsCons h₁ h₂ _ ih₁ ih₂ ih₃ =>
    have hc₁ := (h₁.extends hc).coherent
    exact ih₃ (h₂.extends hc₁).coherent (ih₂ hc₁ (ih₁ hc hroomy))
  | function _ hbody hleave =>
    exact ((hbody.extends (hc.enterFunction _ _)).function hleave).roomy hroomy

/-- The parameters of a function are within its room. -/
theorem Setting.roomy_enterFunction (c : Setting) (name : Option String) {params : List Ident}
    (h : params.length ≤ 255) :
    Setting.Roomy { c with symbols := c.symbols.enterFunction name params } := by
  have hsites : (c.symbols.enterFunction name params).inner.definitions = params.length :=
    (congrArg Names.sites (c.symbols.names_enterFunction name params)).trans
      (Names.sites_ofFunction name params)
  rw [Setting.Roomy, SymbolTable.view_enterFunction]
  show _ ≤ 256
  exact hsites ▸ Nat.le_succ_of_le h

theorem inFunction_of {t : SymbolTable} (h : t.isGlobal = false) : t.view.inFunction = true := by
  rw [SymbolTable.inFunction_view, h]
  rfl

open Occurrence in
/-- The phrase after one that has been compiled, at its place. -/
theorem Writes.throughout_next {c₁ : Setting} {q : Phrase} {g : Nat} (h : Writes c start p is c₁)
    (hc : c.symbols.Coherent) (hr : c.symbols.Reachable) (hroomy : c.Roomy)
    (hnext : c₁.symbols.Coherent → c₁.symbols.Reachable → c₁.Roomy →
      Throughout Allowed ⟨c₁.symbols.view, start + sizeAll is + g, q⟩) :
    Throughout Allowed (Occurrence.next ⟨c.symbols.view, start, p⟩ g q) := by
  have hext := h.extends hc
  have hrest := hnext hext.coherent (h.reachable hr) (h.roomy hc hroomy)
  rwa [hext.view, (h.meets hc hr).size] at hrest

open Occurrence in
/-- **Everything in a phrase that compiles is allowed where it stands.** -/
theorem Writes.throughout (h : Writes c start p is c') (hc : c.symbols.Coherent)
    (hr : c.symbols.Reachable) (hroomy : c.Roomy) :
    Throughout Allowed ⟨c.symbols.view, start, p⟩ := by
  induction h with
  | ident hresolve =>
    refine .leaf rfl fun hnone => ?_
    exact Option.some_ne_none _ ((hc.storage?_of_resolve hresolve).symm.trans hnone)
  | number hfinite => exact .leaf rfl hfinite
  | string | boolean | exprsNil | pairsNil | branchNil | bodyNil | stmtsNil =>
    exact .leaf rfl trivial
  | unary _ ih | stmtExpr _ ih | stmtBind _ _ ih => exact .one rfl trivial (ih hc hr hroomy)
  | array _ hlen ih => exact .one rfl (Nat.le_of_lt_succ hlen) (ih hc hr hroomy)
  | map _ hlen ih =>
    refine .one rfl ?_ (ih hc hr hroomy)
    show _ ≤ 32767
    omega
  | stmtRet hfunction _ ih => exact .one rfl (inFunction_of hfunction) (ih hc hr hroomy)
  | branchExpr _ ih | bodyExpr _ ih =>
    exact .two rfl trivial (.one rfl trivial (ih hc hr hroomy)) (.leaf rfl trivial)
  | bodyRet hfunction _ ih =>
    exact .two rfl trivial (.one rfl (inFunction_of hfunction) (ih hc hr hroomy))
      (.leaf rfl trivial)
  | less h₁ _ ih₁ ih₂ | index h₁ _ ih₁ ih₂ | exprsCons h₁ _ ih₁ ih₂ | branchCons _ h₁ _ ih₁ ih₂
  | bodyCons _ h₁ _ ih₁ ih₂ | stmtsCons h₁ _ ih₁ ih₂ =>
    exact .two rfl trivial (ih₁ hc hr hroomy) (h₁.throughout_next hc hr hroomy ih₂)
  | binary hop h₁ _ ih₁ ih₂ =>
    exact .two (parts_binary hop) trivial (ih₁ hc hr hroomy) (h₁.throughout_next hc hr hroomy ih₂)
  | call h₁ _ hlen ih₁ ih₂ =>
    exact .two rfl (Nat.le_of_lt_succ hlen) (ih₁ hc hr hroomy) (h₁.throughout_next hc hr hroomy ih₂)
  | cond h₁ h₂ h₃ htoNo hlt htoEnd hlt' ih₁ ih₂ ih₃ =>
    have hext := h₁.extends hc
    subst htoNo htoEnd
    have hlast := h₂.throughout_next hext.coherent (h₁.reachable hr) (h₁.roomy hc hroomy) ih₃
    rw [hext.view, (h₁.meets hc hr).size] at hlast
    refine .three rfl ?_ (ih₁ hc hr hroomy) (h₁.throughout_next hc hr hroomy ih₂) hlast
    -- The layout of the whole has a size, and its end is the target of a jump.
    show _ + _ ≤ 65535
    rw [← ((h₁.cond h₂ h₃ rfl hlt rfl hlt').meets hc hr).size]
    simp only [Instruction.sizeAll_append, Instruction.sizeAll_cons, Instruction.size_jump,
      Instruction.size_jumpNotTruthy]
    omega
  | pairsCons h₁ h₂ _ ih₁ ih₂ ih₃ =>
    have hext := h₁.extends hc
    have hlast :=
      h₂.throughout_next (g := 0) hext.coherent (h₁.reachable hr) (h₁.roomy hc hroomy) ih₃
    rw [hext.view, (h₁.meets hc hr).size] at hlast
    exact .three rfl trivial (ih₁ hc hr hroomy) (h₁.throughout_next hc hr hroomy ih₂) hlast
  | @function c c' _ name params block _ is _ _ hparams hbody _ hsize _ _ ih =>
    have hc' := hc.enterFunction name params
    have hr' := hr.enterFunction name params
    have hroomy' := c.roomy_enterFunction name hparams
    have hext := hbody.extends hc'
    have hmeets := hbody.meets hc' hr'
    have hinside := ih hc' hr' hroomy'
    rw [c.symbols.view_enterFunction] at hmeets hinside
    -- The number of variables is what the names inside have counted, and the
    -- number of captures that of the names that are demanded from around.
    refine .one rfl ⟨hparams, ?_, ?_⟩ hinside
    · have hsites := hbody.roomy hc' hroomy'
      have hnames := congrArg Names.sites hext.names
      rw [Phrase.skip, c.symbols.names_enterFunction] at hnames
      rw [Setting.Roomy, hext.room, c.symbols.view_enterFunction] at hsites
      exact hnames ▸ hsites
    · have hcaptured := hmeets.captured
      rw [Scope.captured_of_captures (SymbolTable.captures_enterFunction ..),
        Finset.empty_union] at hcaptured
      show Finset.card (Phrase.demand _ (.body _)).captures ≤ 255
      rw [← hcaptured, (hbody.reachable hr').card_captured]
      exact Nat.le_of_lt_succ hsize

end

/-! ## What is allowed compiles -/

/-- **A setting between two phrases.** -/
structure Setting.Regular (c : Setting) : Prop where
  /-- The table can be relied on. -/
  coherent : c.symbols.Coherent
  /-- It has come about from an empty one. -/
  reachable : c.symbols.Reachable
  /-- No literal is in the pool twice. -/
  nodup : (literalsIn c.constants).Nodup
  /-- Every global has a slot. -/
  addressed : c.symbols.top.Addressed
  /-- The top level knows the builtin functions. -/
  builtins : ∀ name, c.symbols.top.find? name = none → Builtin.ofName? name = none

/-- What is not found after more globals were bound was not found before. -/
theorem Scope.BindsGlobals.find?_none {s s' : Scope} {name : String} (h : s.BindsGlobals s')
    (hnone : s'.find? name = none) : s.find? name = none := by
  obtain ⟨globals, hbindings, -⟩ := h
  rw [find?, hbindings, List.find?_append, Option.or_eq_none_iff] at hnone
  exact hnone.2

section

variable {c c₁ c' : Setting} {start : Nat} {p : Phrase} {is : List Instruction}

/-- After a phrase the setting is regular again. -/
theorem Writes.regular (h : Writes c start p is c') (hc : c.Regular) : c'.Regular where
  coherent := (h.extends hc.coherent).coherent
  reachable := h.reachable hc.reachable
  nodup := (h.meets hc.coherent hc.reachable).nodup hc.nodup
  addressed := h.addressed hc.coherent hc.addressed
  builtins name hnone := hc.builtins name (h.bindsGlobals.find?_none hnone)

/-- So it is inside of a function. -/
theorem Setting.Regular.enterFunction (hc : c.Regular) (name : Option String)
    (params : List Ident) :
    Setting.Regular { c with symbols := c.symbols.enterFunction name params } where
  coherent := hc.coherent.enterFunction name params
  reachable := hc.reachable.enterFunction name params
  nodup := hc.nodup
  addressed := (c.symbols.top_enterFunction name params).symm ▸ hc.addressed
  builtins := (c.symbols.top_enterFunction name params).symm ▸ hc.builtins

/-- A function stays inside of what it is in. -/
theorem outer_ne_nil {outer outer' : List Scope} (h : List.Forall₂ Scope.Grows outer outer')
    (hne : outer' ≠ []) : outer ≠ [] := by
  rintro rfl
  exact hne (List.forall₂_nil_left_iff.1 h)

/-- **There is room for a demand**, and for so many variables. -/
structure Room (c : Setting) (sites : Nat) (d : Demand) : Prop where
  /-- The function can have so many variables. -/
  sites : sites ≤ c.symbols.view.room
  /-- It can capture what it has to capture. -/
  captures : c.symbols.outer ≠ [] → (c.symbols.inner.captured ∪ d.captures).card ≤ 255
  /-- There can be so many constants. -/
  constants : (literalSet c.constants ∪ d.literals).card +
    (routinesIn c.constants + d.functions) ≤ 65536

namespace Room

variable {n k : Nat} {d e : Demand}

/-- What there is room for begins with what comes first. -/
theorem first (h : Room c n (d ++ e)) (hk : k ≤ n) : Room c k d where
  sites := Nat.le_trans hk h.sites
  captures hfunction := by
    refine Nat.le_trans (Finset.card_le_card ?_) (h.captures hfunction)
    exact Finset.union_subset_union_right Finset.subset_union_left
  constants := by
    refine Nat.le_trans (Nat.add_le_add (Finset.card_le_card ?_) ?_) h.constants
    · exact Finset.union_subset_union_right Finset.subset_union_left
    · exact Nat.add_le_add_left (Nat.le_add_right ..) _

/-- There is still room for the rest when what comes first has been compiled. -/
theorem rest (h : Room c n (d ++ e)) (hmeets : Meets c d is c₁)
    (hview : c₁.symbols.view.room = c.symbols.view.room) : Room c₁ n e where
  sites := hview ▸ h.sites
  captures hfunction := by
    rw [hmeets.captured, Finset.union_assoc]
    exact h.captures (outer_ne_nil hmeets.grows hfunction)
  constants := by
    rw [hmeets.literals, hmeets.routines, Finset.union_assoc, Nat.add_assoc]
    exact h.constants

/-- Bytes take no room. -/
theorem skip (h : Room c n (.bytes k ++ e)) : Room c n e :=
  ⟨h.sites, by simpa [Demand.bytes] using h.captures, by simpa [Demand.bytes] using h.constants⟩

end Room

end

/-! ### Names -/

namespace Symbol

variable {x : Symbol} {s : Scope}

/-- A symbol whose index fits can be read. -/
theorem exists_load? (h : x.index < if x.storage = .global then 65536 else 256) :
    ∃ i, x.load? = some i := by
  obtain ⟨name, storage, index⟩ := x
  cases storage with
  | itself => exact ⟨_, rfl⟩
  | global | frame | builtin | captured => exact ⟨_, if_pos h⟩

/-- **What a function sees can be read**, if the function is within its
limits. -/
theorem SeenIn.exists_load? (h : x.SeenIn s) (hs : s.Valid) (hdefinitions : s.definitions ≤ 256)
    (hcaptures : s.captures.size ≤ 255) : ∃ i, x.load? = some i := by
  obtain ⟨name, storage, index⟩ := x
  cases storage with
  | itself => exact ⟨_, rfl⟩
  | frame =>
    have hlt := hs.bounded name index (mem_of_lookup h)
    exact ⟨_, if_pos (Nat.lt_of_lt_of_le hlt hdefinitions)⟩
  | captured =>
    obtain ⟨-, source, hsource, -⟩ := h
    obtain ⟨hlt, -⟩ := Array.getElem?_eq_some_iff.1 hsource
    exact ⟨_, if_pos (Nat.lt_of_lt_of_le hlt (Nat.le_succ_of_le hcaptures))⟩
  | global | builtin => exact h.elim

/-- If each of some symbols can be loaded, all of them can. -/
theorem exists_loads? {symbols : List Symbol} (h : ∀ x ∈ symbols, ∃ i, x.load? = some i) :
    ∃ loads, loads? symbols = some loads := by
  induction symbols with
  | nil => exact ⟨[], rfl⟩
  | cons x rest ih =>
    obtain ⟨i, hi⟩ := h x List.mem_cons_self
    obtain ⟨is, his⟩ := ih fun y hy => h y (List.mem_cons_of_mem _ hy)
    exact ⟨i :: is, by rw [loads?, hi, his]⟩

end Symbol

section

variable {c : Setting} {name : String} {n : Nat}

/-- A name that can be seen is found. -/
theorem Setting.Regular.exists_resolve (hc : c.Regular) (h : c.symbols.view.storage? name ≠ none) :
    ∃ x t, c.symbols.resolve name = some (x, t) := by
  cases hresolve : c.symbols.resolve name with
  | some found => exact ⟨_, _, rfl⟩
  | none =>
    have hnone := SymbolTable.resolve_eq_none_iff.1 hresolve
    refine (h (storage?_of_find?_none (hc.builtins name ?_) hnone)).elim
    exact hnone _ (topScope_mem ..)

/-- **A name that can be seen can be read**, if there is room. -/
theorem Setting.Regular.exists_load? {x : Symbol} {t : SymbolTable} (hc : c.Regular)
    (hroom : Room c n (.name c.symbols.view name)) (hn : c.symbols.inner.definitions ≤ n)
    (h : c.symbols.resolve name = some (x, t)) : ∃ i, x.load? = some i := by
  obtain ⟨hcoherent, hinner, houter, hfound⟩ := hc.coherent.resolve h
  cases hfound with
  | shared hshared hfind =>
    refine Symbol.exists_load? ?_
    rcases hcoherent.isTop.seen name x hfind with hglobal | ⟨hbuiltin, -, b, hindex, -⟩
    · rw [if_pos hglobal]
      have hfind' : c.symbols.top.find? name = some x := SymbolTable.top_of_resolve h ▸ hfind
      exact hc.addressed.index_lt hfind' hglobal
    · rw [if_neg (by simp [hbuiltin])]
      exact Nat.lt_trans (List.getElem?_eq_some_iff.1 hindex).1 (by decide)
  | seen hfunction _ hseen =>
    have hvalid : t.inner.Valid := by
      obtain ⟨next, rest, heq⟩ := List.exists_cons_of_ne_nil hfunction
      exact (heq ▸ hcoherent : Chain t.inner (next :: rest)).valid
    have hfunction' := outer_ne_nil houter hfunction
    refine hseen.exists_load? hvalid ?_ ?_
    · rw [hinner.definitions]
      exact Nat.le_trans hn (SymbolTable.room_of_outer hfunction' ▸ hroom.sites)
    · rw [← (hc.reachable.resolve h).card_captured, (hc.coherent.spread_resolve h).1]
      exact hroom.captures hfunction'

end

/-! ### Phrases -/

/-- Passing over a phrase takes back no variables. -/
theorem Phrase.sites_le_skip (p : Phrase) (ns : Names) : ns.sites ≤ (p.skip ns).sites := by
  cases p with
  | expr e => exact (Names.additive_skip e).sites_le ns
  | exprs es => exact (Names.additive_skipAll es).sites_le ns
  | pairs entries => exact (Names.additive_skipPairs entries).sites_le ns
  | branch block | body block | stmts block => exact (Names.additive_skipBlock block).sites_le ns
  | stmt s => exact (Names.additive_skipStmt s).sites_le ns

/-- **A phrase that compiles wherever there is room for it.** -/
def Occurrence.Writable (o : Occurrence) : Prop :=
  ∀ c : Setting, c.Regular → c.symbols.view = o.view →
    Room c (o.phrase.skip o.view.own).sites (o.phrase.demand o.view) →
    ∃ is c', Writes c o.offset o.phrase is c'

/-- **A phrase that has been compiled**, and room for what comes after it. -/
structure Begun (c : Setting) (o : Occurrence) (n : Nat) (e : Demand) (is : List Instruction)
    (c₁ : Setting) : Prop where
  /-- The phrase has been compiled. -/
  writes : Writes c o.offset o.phrase is c₁
  /-- It is as long as it is said to be. -/
  size : sizeAll is = (o.phrase.demand o.view).width
  /-- The setting is between two phrases. -/
  regular : c₁.Regular
  /-- The view is the one after the phrase. -/
  view : c₁.symbols.view = o.view.after o.phrase
  /-- There is room for the rest. -/
  room : Room c₁ n e

section

variable {o : Occurrence} {c c₁ c₂ : Setting} {n k g : Nat} {d e : Demand} {p q : Phrase}
  {is js : List Instruction}

namespace Occurrence.Writable

/-- The first of several parts is compiled, and there is still room for the
others. -/
theorem begun (h : o.Writable) (hc : c.Regular) (hview : c.symbols.view = o.view)
    (hroom : Room c n (o.phrase.demand o.view ++ e)) (hn : (o.phrase.skip o.view.own).sites ≤ n) :
    ∃ is c₁, Begun c o n e is c₁ := by
  obtain ⟨is, c₁, hw⟩ := h c hc hview (hroom.first hn)
  have hmeets := hw.meets hc.coherent hc.reachable
  have hext := hw.extends hc.coherent
  have hview' := hext.view
  rw [hview] at hmeets hview'
  exact ⟨is, c₁, hw, hmeets.size, hw.regular hc, hview', hroom.rest hmeets hext.room⟩

/-- Two phrases, one after the other. -/
theorem two (h : ∀ part ∈ [o, o.next 0 q], part.Writable) (hc : c.Regular)
    (hview : c.symbols.view = o.view)
    (hroom : Room c (q.skip (o.phrase.skip o.view.own)).sites
      (o.phrase.demand o.view ++ q.demand (o.view.after o.phrase))) :
    ∃ is c₁ js c₂, Writes c o.offset o.phrase is c₁ ∧
      Writes c₁ (o.offset + sizeAll is) q js c₂ := by
  have hfirst : o.Writable := h _ (by simp)
  have hnext : (o.next 0 q).Writable := h _ (by simp)
  obtain ⟨is, c₁, hbegun⟩ := hfirst.begun hc hview hroom (q.sites_le_skip _)
  obtain ⟨js, c₂, hw⟩ := hnext c₁ hbegun.regular hbegun.view hbegun.room
  exact ⟨is, c₁, js, c₂, hbegun.writes, hbegun.size ▸ hw⟩

/-- Three phrases, with a jump before the second and the third. -/
theorem three (h : ∀ part ∈ [o, o.next g p, (o.next g p).next g q], part.Writable)
    (hc : c.Regular) (hview : c.symbols.view = o.view)
    (hroom : Room c (q.skip (p.skip (o.phrase.skip o.view.own))).sites
      (o.phrase.demand o.view ++ (.bytes g ++ (p.demand (o.view.after o.phrase) ++
        (.bytes g ++ q.demand ((o.view.after o.phrase).after p)))))) :
    ∃ is c₁ js c₂ ks c₃, Writes c o.offset o.phrase is c₁ ∧
      Writes c₁ (o.offset + sizeAll is + g) p js c₂ ∧
      Writes c₂ (o.offset + sizeAll is + g + sizeAll js + g) q ks c₃ ∧
      sizeAll is = (o.phrase.demand o.view).width ∧
      sizeAll js = (p.demand (o.view.after o.phrase)).width ∧
      sizeAll ks = (q.demand ((o.view.after o.phrase).after p)).width := by
  have hfirst : o.Writable := h _ (by simp)
  have hsecond : (o.next g p).Writable := h _ (by simp)
  have hthird : ((o.next g p).next g q).Writable := h _ (by simp)
  obtain ⟨is, c₁, h₁⟩ := hfirst.begun hc hview hroom
    (Nat.le_trans (p.sites_le_skip _) (q.sites_le_skip _))
  obtain ⟨js, c₂, h₂⟩ := hsecond.begun h₁.regular h₁.view h₁.room.skip (q.sites_le_skip _)
  obtain ⟨ks, c₃, hw⟩ := hthird c₂ h₂.regular h₂.view h₂.room.skip
  have hsize := (hw.meets h₂.regular.coherent h₂.regular.reachable).size
  rw [h₂.view] at hsize
  refine ⟨is, c₁, js, c₂, ks, c₃, h₁.writes, h₁.size ▸ h₂.writes, ?_, h₁.size, h₂.size, hsize⟩
  rw [h₁.size, h₂.size]
  exact hw

end Occurrence.Writable

/-- A variable within the limit can be set. -/
theorem SymbolTable.exists_store? {t : SymbolTable} (name : String)
    (h : t.inner.definitions < t.view.room) : ∃ i, (t.define name).1.store? = some i := by
  obtain ⟨inner, outer⟩ := t
  cases outer with
  | nil | cons => exact ⟨_, if_pos h⟩

/-- **A function literal compiles** if its body does. -/
theorem Occurrence.writable_function {v : View} {start : Nat} {name : Option String}
    {params : List Ident} {block : Block} {span : Span}
    (hallowed : Allowed ⟨v, start, .expr (.function name params block span)⟩)
    (h : Writable ⟨v.inside name params, 0, .body block.body⟩) :
    Writable ⟨v, start, .expr (.function name params block span)⟩ := by
  rintro c hc rfl hroom
  rw [Phrase.demand, Phrase.skip, View.demand_function, Names.skip] at hroom
  obtain ⟨hparams, hsites, hcaptures⟩ := hallowed
  have hc' := hc.enterFunction name params
  have hview := c.symbols.view_enterFunction name params
  have hempty := Scope.captured_of_captures (c.symbols.captures_enterFunction name params)
  -- Inside there is room for what the body needs: its variables and captures
  -- are counted anew, and the constants are shared.
  have hinside : Room { c with symbols := c.symbols.enterFunction name params }
      ((Names.ofFunction name params).skipBlock block.body).sites
      (Phrase.demand (c.symbols.view.inside name params) (.body block.body)) := by
    refine ⟨?_, fun _ => ?_, Nat.le_of_succ_le hroom.constants⟩
    · rw [hview]
      exact hsites
    · rw [hempty, Finset.empty_union]
      exact hcaptures
  obtain ⟨is, c', hw⟩ := h _ hc' hview hinside
  have hext := hw.extends hc'.coherent
  have hmeets := hw.meets hc'.coherent hc'.reachable
  have hr' := hw.reachable hc'.reachable
  have hgrows := hext.outer
  have hspread := hmeets.spread
  have hchain : Chain c'.symbols.inner c'.symbols.outer := hext.coherent
  rw [hview, c.symbols.outer_enterFunction] at hspread
  rw [c.symbols.outer_enterFunction] at hgrows
  generalize houter : c'.symbols.outer = outer at hgrows hspread hchain
  cases hgrows with
  | @cons _ next _ rest hnext hrest =>
  cases hspread with
  | cons hcaptured _ =>
    have hleave : c'.symbols.leave? = some ⟨next, rest⟩ := by
      rw [SymbolTable.leave?, houter]
    have hsize : c'.symbols.inner.captures.size ≤ 255 := by
      rw [← hr'.card_captured, hmeets.captured, hempty, Finset.empty_union, hview]
      exact hcaptures
    -- Every capture can be loaded: it is a variable or a capture of the
    -- function around, and there are not too many of either.
    have hloads : ∀ source ∈ c'.symbols.inner.captures.toList, ∃ i, source.load? = some i := by
      intro source hsource
      obtain ⟨hne, hseen⟩ := hchain.captures_seen source hsource
      obtain ⟨further, rest', rfl⟩ := List.exists_cons_of_ne_nil hne
      have hfunction := outer_ne_nil hrest hne
      refine hseen.exists_load? hchain.tail.valid ?_ ?_
      · rw [hnext.definitions, ← SymbolTable.room_of_outer hfunction]
        exact hroom.sites
      · rw [← (hr'.leave hleave).card_captured, hcaptured]
        exact hroom.captures hfunction
    obtain ⟨loads, hloads⟩ := Symbol.exists_loads? hloads
    -- The routine needs one more place in the pool.
    have hpool : c'.constants.size < 65536 := by
      rw [size_of_nodup (hmeets.nodup hc'.nodup), hmeets.literals, hmeets.routines, hview]
      exact hroom.constants
    exact ⟨_, _, .function hparams hw hleave (Nat.lt_succ_of_le hsize) hloads hpool⟩

/-- **An expression compiles if its parts do.** What has to be allowed of it is
a bound on one of its own operands, or that its name can be found. -/
theorem Occurrence.writable_expr {v : View} {start : Nat} {e : Expr}
    (hallowed : Allowed ⟨v, start, .expr e⟩)
    (h : ∀ part ∈ parts ⟨v, start, .expr e⟩, part.Writable) : Writable ⟨v, start, .expr e⟩ := by
  cases e with
  | function name params block span =>
    exact writable_function hallowed (List.forall_mem_singleton.1 h)
  | ident name span =>
    rintro c hc rfl hroom
    rw [Phrase.demand, Phrase.skip, View.demand, Names.skip] at hroom
    obtain ⟨x, t, hresolve⟩ := hc.exists_resolve hallowed
    obtain ⟨i, hload⟩ := hc.exists_load? hroom (Nat.le_refl _) hresolve
    exact ⟨_, _, .ident hresolve hload⟩
  | number n span =>
    rintro c hc rfl hroom
    rw [Phrase.demand, View.demand] at hroom
    obtain ⟨index, c', hintern⟩ := Setting.exists_intern (l := .number n) hc.nodup hroom.constants
    exact ⟨_, _, .number hallowed hintern⟩
  | string s span =>
    rintro c hc rfl hroom
    rw [Phrase.demand, View.demand] at hroom
    obtain ⟨index, c', hintern⟩ := Setting.exists_intern (l := .string s) hc.nodup hroom.constants
    exact ⟨_, _, .string hintern⟩
  | boolean b span => exact fun c _ _ _ => ⟨_, _, .boolean⟩
  | unary op operand span =>
    rintro c hc rfl hroom
    rw [Phrase.demand, Phrase.skip, View.demand, Names.skip] at hroom
    obtain ⟨is, c', hw⟩ := List.forall_mem_singleton.1 h c hc rfl (hroom.first (Nat.le_refl _))
    exact ⟨_, _, .unary hw⟩
  | array items span =>
    rintro c hc rfl hroom
    rw [Phrase.demand, Phrase.skip, View.demand, Names.skip] at hroom
    obtain ⟨is, c', hw⟩ := List.forall_mem_singleton.1 h c hc rfl (hroom.first (Nat.le_refl _))
    exact ⟨_, _, .array hw (Nat.lt_succ_of_le hallowed)⟩
  | map entries span =>
    rintro c hc rfl hroom
    rw [Phrase.demand, Phrase.skip, View.demand, Names.skip] at hroom
    obtain ⟨is, c', hw⟩ := List.forall_mem_singleton.1 h c hc rfl (hroom.first (Nat.le_refl _))
    have hlen : entries.length ≤ 32767 := hallowed
    exact ⟨_, _, .map hw (by omega)⟩
  | binary op left right span =>
    rintro c hc rfl hroom
    by_cases hop : op = .less
    · subst hop
      rw [Phrase.demand, Phrase.skip, View.demand, Names.skip, ← Demand.append_assoc] at hroom
      obtain ⟨is, c₁, js, c₂, h₁, h₂⟩ := Writable.two h hc rfl (hroom.first (Nat.le_refl _))
      exact ⟨_, _, .less h₁ h₂⟩
    · rw [Phrase.demand, Phrase.skip, View.demand_binary _ _ _ _ hop, Names.skip_binary _ _ _ _ hop,
        ← Demand.append_assoc] at hroom
      rw [parts_binary hop] at h
      obtain ⟨is, c₁, js, c₂, h₁, h₂⟩ := Writable.two h hc rfl (hroom.first (Nat.le_refl _))
      exact ⟨_, _, .binary hop h₁ h₂⟩
  | call callee args span =>
    rintro c hc rfl hroom
    rw [Phrase.demand, Phrase.skip, View.demand, Names.skip, ← Demand.append_assoc] at hroom
    obtain ⟨is, c₁, js, c₂, h₁, h₂⟩ := Writable.two h hc rfl (hroom.first (Nat.le_refl _))
    exact ⟨_, _, .call h₁ h₂ (Nat.lt_succ_of_le hallowed)⟩
  | index container key span =>
    rintro c hc rfl hroom
    rw [Phrase.demand, Phrase.skip, View.demand, Names.skip, ← Demand.append_assoc] at hroom
    obtain ⟨is, c₁, js, c₂, h₁, h₂⟩ := Writable.two h hc rfl (hroom.first (Nat.le_refl _))
    exact ⟨_, _, .index h₁ h₂⟩
  | cond test yes no span =>
    rintro c hc rfl hroom
    rw [Phrase.demand, Phrase.skip, View.demand, Names.skip, View.demandBranch_eq,
      View.demandOther_eq, Names.skipBranch_eq, Names.skipOther_eq] at hroom
    -- Both targets lie within the code of the phrase, so a bound on its end is
    -- enough.
    have hlimit : start + (c.symbols.view.demand (.cond test yes no span)).width ≤ 65535 := hallowed
    rw [View.demand, View.demandBranch_eq, View.demandOther_eq] at hlimit
    obtain ⟨ts, c₁, ys, c₂, ns, c₃, h₁, h₂, h₃, hts, hys, hns⟩ :=
      Writable.three h hc rfl hroom
    have hend : start + sizeAll ts + 3 + sizeAll ys + 3 + sizeAll ns < 65536 := by
      change sizeAll ts = (c.symbols.view.demand test).width at hts
      dsimp only at hys hns
      simp only [Demand.width_append, Demand.bytes, ← hts, ← hys, ← hns] at hlimit
      omega
    exact ⟨_, _, .cond h₁ h₂ h₃ rfl (Nat.lt_of_le_of_lt (Nat.le_add_right ..) hend) rfl hend⟩

/-- So does a statement. A return has to be in a function, and a binding needs
room for one more variable. -/
theorem Occurrence.writable_stmt {v : View} {start : Nat} {s : Stmt}
    (hallowed : Allowed ⟨v, start, .stmt s⟩)
    (h : ∀ part ∈ parts ⟨v, start, .stmt s⟩, part.Writable) : Writable ⟨v, start, .stmt s⟩ := by
  rintro c hc rfl hroom
  cases s with
  | expr value span =>
    rw [Phrase.demand, Phrase.skip, View.demandStmt, Names.skipStmt] at hroom
    obtain ⟨is, c', hw⟩ := List.forall_mem_singleton.1 h c hc rfl (hroom.first (Nat.le_refl _))
    exact ⟨_, _, .stmtExpr hw⟩
  | ret value span =>
    rw [Phrase.demand, Phrase.skip, View.demandStmt, Names.skipStmt] at hroom
    obtain ⟨is, c', hw⟩ := List.forall_mem_singleton.1 h c hc rfl (hroom.first (Nat.le_refl _))
    have hfunction : c.symbols.isGlobal = false := by
      have hallowed' : c.symbols.view.inFunction = true := hallowed
      simpa [SymbolTable.inFunction_view] using hallowed'
    exact ⟨_, _, .stmtRet hfunction hw⟩
  | bind name value span =>
    rw [Phrase.demand, Phrase.skip, View.demandStmt, Names.skipStmt] at hroom
    obtain ⟨is, c', hw⟩ := List.forall_mem_singleton.1 h c hc rfl (hroom.first (Nat.le_succ _))
    have hext := hw.extends hc.coherent
    have hsites : c'.symbols.inner.definitions < c'.symbols.view.room := by
      rw [hext.room, show c'.symbols.inner.definitions = _ from congrArg Names.sites hext.names]
      exact hroom.sites
    obtain ⟨i, hstore⟩ := SymbolTable.exists_store? name.name hsites
    exact ⟨_, _, .stmtBind hw hstore⟩

/-- **A phrase compiles if its parts do**, where it is allowed and there is
room. -/
theorem Occurrence.writable_of_parts (hallowed : o.Allowed) (h : ∀ part ∈ o.parts, part.Writable) :
    o.Writable := by
  obtain ⟨v, start, p⟩ := o
  cases p with
  | expr e => exact writable_expr hallowed h
  | stmt s => exact writable_stmt hallowed h
  | exprs es =>
    rintro c hc rfl hroom
    cases es with
    | nil => exact ⟨_, _, .exprsNil⟩
    | cons e rest =>
      rw [Phrase.demand, Phrase.skip, View.demandAll, Names.skipAll] at hroom
      obtain ⟨is, c₁, js, c₂, h₁, h₂⟩ := Writable.two h hc rfl hroom
      exact ⟨_, _, .exprsCons h₁ h₂⟩
  | pairs entries =>
    rintro c hc rfl hroom
    cases entries with
    | nil => exact ⟨_, _, .pairsNil⟩
    | cons entry rest =>
      obtain ⟨key, value⟩ := entry
      rw [Phrase.demand, Phrase.skip, View.demandPairs, Names.skipPairs] at hroom
      -- There are no bytes between a key, its value and the rest.
      obtain ⟨is, c₁, js, c₂, ks, c₃, h₁, h₂, h₃, -⟩ :=
        Writable.three h hc rfl
          (by rw [Demand.bytes_zero_append, Demand.bytes_zero_append]; exact hroom)
      exact ⟨_, _, .pairsCons h₁ h₂ h₃⟩
  | branch block =>
    rintro c hc rfl hroom
    cases block with
    | nil => exact ⟨_, _, .branchNil⟩
    | cons s rest =>
      rw [Phrase.demand, Phrase.skip, View.demandBlock, Names.skipBlock] at hroom
      obtain ⟨is, c₁, js, c₂, h₁, h₂⟩ := Writable.two h hc rfl
        ⟨hroom.sites, hroom.captures, hroom.constants⟩
      by_cases hlast : rest = [] → s.isExpr = false
      · exact ⟨_, _, .branchCons hlast h₁ h₂⟩
      · obtain ⟨rfl, hs⟩ := Classical.not_imp.1 hlast
        cases h₁ with
        | stmtExpr hw => exact ⟨_, _, .branchExpr hw⟩
        | stmtBind | stmtRet => exact (hs rfl).elim
  | body block =>
    rintro c hc rfl hroom
    cases block with
    | nil => exact ⟨_, _, .bodyNil⟩
    | cons s rest =>
      rw [Phrase.demand, Phrase.skip, View.demandBlock, Names.skipBlock] at hroom
      obtain ⟨is, c₁, js, c₂, h₁, h₂⟩ := Writable.two h hc rfl
        ⟨hroom.sites, hroom.captures, hroom.constants⟩
      by_cases hlast : rest = [] → s.isBind = true
      · exact ⟨_, _, .bodyCons hlast h₁ h₂⟩
      · obtain ⟨rfl, hs⟩ := Classical.not_imp.1 hlast
        cases h₁ with
        | stmtExpr hw => exact ⟨_, _, .bodyExpr hw⟩
        | stmtRet hfunction hw => exact ⟨_, _, .bodyRet hfunction hw⟩
        | stmtBind => exact (hs rfl).elim
  | stmts block =>
    rintro c hc rfl hroom
    cases block with
    | nil => exact ⟨_, _, .stmtsNil⟩
    | cons s rest =>
      rw [Phrase.demand, Phrase.skip, View.demandBlock, Names.skipBlock] at hroom
      obtain ⟨is, c₁, js, c₂, h₁, h₂⟩ := Writable.two h hc rfl hroom
      exact ⟨_, _, .stmtsCons h₁ h₂⟩

/-- **What is allowed compiles**, wherever there is room for it. -/
theorem Occurrence.Throughout.writable (h : Throughout Allowed o) : o.Writable := by
  induction h with
  | intro hallowed _ ih => exact writable_of_parts hallowed ih

end

/-! ## Programs -/

/-- **There are never more constants than an operand can name.** -/
theorem Writes.size_constants_le {c c' : Setting} {start : Nat} {p : Phrase} {is : List Instruction}
    (h : Writes c start p is c') (hsize : c.constants.size ≤ 65536) :
    c'.constants.size ≤ 65536 := by
  induction h with
  | number _ hintern | string hintern =>
    unfold Setting.intern at hintern
    split at hintern
    · obtain ⟨-, heq⟩ := Option.ite_none_right_eq_some.1 hintern
      cases heq
      exact hsize
    · obtain ⟨hlt, heq⟩ := Option.ite_none_right_eq_some.1 hintern
      cases heq
      rw [Array.size_push]
      exact hlt
  | ident | boolean | exprsNil | pairsNil | branchNil | bodyNil | stmtsNil => exact hsize
  | unary _ ih | array _ _ ih | map _ _ ih | branchExpr _ ih | bodyExpr _ ih | bodyRet _ _ ih
  | stmtExpr _ ih | stmtRet _ _ ih | stmtBind _ _ ih => exact ih hsize
  | less _ _ ih₁ ih₂ | binary _ _ _ ih₁ ih₂ | call _ _ _ ih₁ ih₂ | index _ _ ih₁ ih₂
  | exprsCons _ _ ih₁ ih₂ | branchCons _ _ _ ih₁ ih₂ | bodyCons _ _ _ ih₁ ih₂
  | stmtsCons _ _ ih₁ ih₂ => exact ih₂ (ih₁ hsize)
  | cond _ _ _ _ _ _ _ ih₁ ih₂ ih₃ | pairsCons _ _ _ ih₁ ih₂ ih₃ => exact ih₃ (ih₂ (ih₁ hsize))
  | function _ _ _ _ _ hlt =>
    rw [Array.size_push]
    exact hlt

/-- In an empty pool there is room for what is demanded. -/
theorem room_iff_of_empty (d : Demand) :
    (literalSet #[] ∪ d.literals).card + (routinesIn #[] + d.functions) ≤ 65536 ↔
      d.literals.card + d.functions ≤ 65536 := by
  have hliterals : literalSet #[] = ∅ := rfl
  have hroutines : routinesIn #[] = 0 := rfl
  rw [hliterals, hroutines, Finset.empty_union, Nat.zero_add]

/-- Programs start from a setting between two phrases. -/
theorem regular_initial : Setting.Regular ⟨.initial, #[]⟩ where
  coherent := SymbolTable.coherent_initial
  reachable := SymbolTable.reachable_initial
  nodup := List.nodup_nil
  addressed := ⟨Nat.zero_le _, nofun⟩
  builtins name hnone := by
    have hall : ∀ b ∈ Builtin.all, SymbolTable.initial.inner.find? b.name ≠ none := by decide
    refine Option.eq_none_iff_forall_ne_some.2 fun b hb => ?_
    have hname : b.name = name := by simpa using List.find?_some hb
    exact hall b (List.mem_of_find?_eq_some hb) (hname ▸ hnone)

/-- **The compiler accepts exactly the admissible programs**: those in which
everything is allowed where it stands, and that have no more globals and
constants than operands can name. -/
theorem Compiler.accepts_exactly_admissible (program : List Stmt) :
    (Compiler.initial.compile program).1 = .ok () ↔ Admissible program := by
  constructor
  · intro hok
    have hcompile : (withState .initial #[]).compile program =
        (.ok (), (Compiler.initial.compile program).2) := Prod.ext hok rfl
    obtain ⟨is, hw, -⟩ := writes_of_compile hcompile rfl
    have hc := regular_initial
    have hext := hw.extends hc.coherent
    have hmeets := hw.meets hc.coherent hc.reachable
    have hroomy : Setting.Roomy ⟨.initial, #[]⟩ := Nat.zero_le _
    refine ⟨hw.throughout hc.coherent hc.reachable hroomy, ?_, ?_⟩
    · have hsites := hw.roomy hc.coherent hroomy
      rw [Setting.Roomy, hext.room] at hsites
      exact Nat.le_trans (Nat.le_of_eq (congrArg Names.sites hext.names.symm)) hsites
    · have hsize := hw.size_constants_le (Nat.zero_le _)
      rw [size_of_nodup (hmeets.nodup hc.nodup), hmeets.literals, hmeets.routines] at hsize
      exact (room_iff_of_empty _).1 hsize
  · intro h
    obtain ⟨is, c', hw⟩ := h.allowed.writable ⟨.initial, #[]⟩ regular_initial rfl
      ⟨h.globals, fun hne => (hne rfl).elim, (room_iff_of_empty _).2 h.constants⟩
    obtain ⟨c, hcompile, -⟩ := hw.compile rfl
    exact congrArg Prod.fst hcompile

end StackScript
