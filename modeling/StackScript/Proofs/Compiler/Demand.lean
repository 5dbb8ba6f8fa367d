import StackScript.Proofs.Compiler.Scoping
import StackScript.Proofs.Compiler.TopLevel
import StackScript.Proofs.Symbol.Resolution

/-!
# Compiled code meets the demand

A table of names has a **view** (`SymbolTable.view`), which is what can be seen
from its innermost scope. Looking a name up agrees with the view
(`SymbolTable.Coherent.storage?_of_resolve`) and adds the name to the captures
of the functions that it has to pass through, from the innermost one out to the
one that binds it (`Spread`). A pool of constants has a set of literals and a
number of functions.

With these, a phrase that compiles meets its demand exactly (`Writes.meets`):
its code has the size that was demanded, and the captures and constants that
were demanded are there, and no others.
-/

namespace StackScript

open Instruction (sizeAll)

/-! ## The view of a table of names -/

/-- **What can be seen from a scope**, with some scopes around it. -/
def viewFrom (s : Scope) (outer : List Scope) : View where
  own := s.names
  around := namesAround outer
  globals := outer.head?.map fun next => (topScope next outer.tail).own.map (·.1)

/-- **What can be seen from the innermost scope of a table.** -/
def SymbolTable.view (t : SymbolTable) : View := viewFrom t.inner t.outer

section

variable {s s' : Scope} {outer outer' : List Scope} {name : String} {x : Symbol}

/-- Captures do not change what can be seen. -/
theorem viewFrom_of_grows (hs : s.Grows s') (h : List.Forall₂ Scope.Grows outer outer') :
    viewFrom s' outer' = viewFrom s outer := by
  have hnames : s'.names = s.names := by rw [Scope.names, Scope.names, hs.own, hs.definitions]
  unfold viewFrom
  rw [hnames, namesAround_of_grows h]
  cases h with
  | nil => rfl
  | cons hnext hrest => simp [topScope_own hnext hrest]

/-- There is a function around a place if there is a scope outside of its
own. -/
theorem inFunction_viewFrom : (viewFrom s outer).inFunction = !outer.isEmpty := by
  cases outer <;> rfl

/-- What a function has captured is a name of one of the functions around it. -/
theorem Chain.mem_namesAround (h : Chain s outer) (hx : x.SeenIn s)
    (hcaptured : x.storage = .captured) :
    x.name ∈ namesAround outer := by
  induction h generalizing x with
  | top htop => simp [Symbol.SeenIn, hcaptured, htop.captures] at hx
  | outermost _ hnone => simp [Symbol.SeenIn, hcaptured, hnone] at hx
  | nested _ hcaptures _ ih =>
    unfold Symbol.SeenIn at hx
    rw [hcaptured] at hx
    obtain ⟨-, source, hsource, hname⟩ := hx
    have hseen := hcaptures source (Array.mem_of_getElem? hsource)
    rw [namesAround, List.mem_append, ← hname]
    cases hstorage : source.storage with
    | captured => exact .inr (ih hseen hstorage)
    | frame | itself =>
      -- The next scope binds the name itself.
      refine .inl (not_not.1 fun hmem => ?_)
      rw [← lookup_eq_none_iff_notMem] at hmem
      simp [Symbol.SeenIn, hstorage, Symbol.binder?, hmem] at hseen
    | global | builtin => simp [Symbol.SeenIn, hstorage] at hseen

/-- **What a function sees under a name** is where its view says. -/
theorem Chain.storage?_of_seen (h : Chain s outer) (houter : outer ≠ []) (hx : x.SeenIn s) :
    (viewFrom s outer).storage? x.name = some x.storage := by
  have hfunction : (viewFrom s outer).inFunction = true := by
    simp [inFunction_viewFrom, houter]
  have hown : (viewFrom s outer).own.bound = s.own := rfl
  unfold View.storage?
  rw [hown, hfunction]
  cases hstorage : x.storage with
  | frame | itself =>
    have hlookup : s.own.lookup x.name = x.binder? := by simpa [Symbol.SeenIn, hstorage] using hx
    simp [hlookup, Symbol.binder?, hstorage]
  | captured =>
    have hmem := h.mem_namesAround hx hstorage
    simp only [Symbol.SeenIn, hstorage] at hx
    rw [hx.1]
    exact if_pos hmem
  | global | builtin => simp [Symbol.SeenIn, hstorage] at hx

/-- **What is found under a name** is where the view says. -/
theorem Chain.storage?_of_found (h : Chain s outer) (hx : SymbolTable.Found name x s outer) :
    (viewFrom s outer).storage? name = some x.storage := by
  cases hx with
  | seen houter hname hseen => exact hname ▸ h.storage?_of_seen houter hseen
  | shared _ hfind hown haround =>
    have hlookup : (viewFrom s outer).own.bound.lookup name = s.own.lookup name := rfl
    unfold View.storage?
    rw [hlookup]
    rcases h.isTop.seen name x hfind with hglobal | ⟨hbuiltin, hnone, b, -, hb⟩
    · have htop := Scope.lookup_own_of_find? hfind (Symbol.binder?_of_global hglobal)
      cases outer with
      | nil =>
        rw [show s.own.lookup name = _ from htop, hglobal]
        rfl
      | cons next rest =>
        -- The view of a function has the names of the top level, and this is
        -- one of them.
        have hmem : name ∈ ((viewFrom s (next :: rest)).globals.getD []) := by
          refine not_not.1 fun hmem => ?_
          have hnone : (topScope s (next :: rest)).own.lookup name = none :=
            lookup_eq_none_iff_notMem.2 hmem
          rw [hnone] at htop
          cases htop
        rw [hown nofun, hglobal]
        simp only [if_neg (show name ∉ (viewFrom s (next :: rest)).around from haround),
          if_pos hmem]
    · have hmem : name ∉ ((viewFrom s outer).globals.getD []) := by
        cases outer with
        | nil => exact List.not_mem_nil
        | cons next rest => exact lookup_eq_none_iff_notMem.1 hnone
      have hown' : s.own.lookup name = none := by
        cases outer with
        | nil => exact hnone
        | cons next rest => exact hown nofun
      rw [hown', hbuiltin]
      simp only [if_neg (show name ∉ (viewFrom s outer).around from haround), if_neg hmem, hb]
      rfl

/-- What a name is looked up as from a scope is where the view says. -/
theorem storage?_of_resolveFrom (hc : Chain s outer)
    (h : SymbolTable.resolveFrom name s outer = some (x, s', outer')) :
    (viewFrom s outer).storage? name = some x.storage := by
  obtain ⟨hchain, hgrows, houter, hfound⟩ := SymbolTable.resolveFrom_spec hc h
  rw [← viewFrom_of_grows hgrows houter]
  exact hchain.storage?_of_found hfound

/-- A name of the functions around is bound by one of them. The top level is not
among them, for globals are not captured. -/
theorem exists_of_mem_namesAround (h : name ∈ namesAround outer) :
    ∃ s' ∈ outer, name ∈ s'.own.map (·.1) := by
  fun_induction namesAround outer with
  | case1 | case2 => cases h
  | case3 s next rest ih =>
    rcases List.mem_append.1 h with hmem | hmem
    · exact ⟨s, List.mem_cons_self, hmem⟩
    · obtain ⟨s', hs', hname⟩ := ih hmem
      exact ⟨s', List.mem_cons_of_mem _ hs', hname⟩

/-- The outermost scope is one of the scopes, so what is bound there can be
found. -/
theorem topScope_mem (s : Scope) (outer : List Scope) : topScope s outer ∈ s :: outer := by
  induction outer generalizing s with
  | nil => exact List.mem_cons_self
  | cons next rest ih => exact List.mem_cons_of_mem _ (ih next)

/-- A name that no scope binds cannot be seen. -/
theorem storage?_of_find?_none (hbuiltin : Builtin.ofName? name = none)
    (h : ∀ s' ∈ s :: outer, s'.find? name = none) : (viewFrom s outer).storage? name = none := by
  have hown : ∀ s' ∈ s :: outer, s'.own.lookup name = none := fun s' hs' =>
    Scope.lookup_own_of_find?_none (h s' hs')
  have haround : name ∉ (viewFrom s outer).around := by
    intro hmem
    obtain ⟨s', hs', hname⟩ := exists_of_mem_namesAround hmem
    exact lookup_eq_none_iff_notMem.1 (hown s' (List.mem_cons_of_mem _ hs')) hname
  have hglobals : name ∉ (viewFrom s outer).globals.getD [] := by
    cases outer with
    | nil => exact List.not_mem_nil
    | cons next rest =>
      exact lookup_eq_none_iff_notMem.1 (hown _ (List.mem_cons_of_mem _ (topScope_mem next rest)))
  unfold View.storage?
  rw [show (viewFrom s outer).own.bound.lookup name = none from hown s List.mem_cons_self]
  simp only [if_neg haround, if_neg hglobals, hbuiltin]
  rfl

end

/-! ## Captures -/

/-- The names that a scope has captured. -/
def Scope.captured (s : Scope) : Finset String := (s.captures.toList.map Symbol.name).toFinset

/-- A function that has just been opened has captured nothing. -/
theorem Scope.captured_of_captures {s : Scope} (h : s.captures = #[]) : s.captured = ∅ := by
  rw [captured, h]
  rfl

/-- A capture adds its name to what the function captures. -/
theorem Scope.captured_capture (s : Scope) (source : Symbol) :
    (s.capture source).2.captured = s.captured ∪ {source.name} := by
  show ((s.captures.push source).toList.map Symbol.name).toFinset = _
  simp [captured, List.toFinset_append]

/-- What is found among the captures has been captured under its name. -/
theorem Symbol.SeenIn.mem_captured {x : Symbol} {s : Scope} (h : x.SeenIn s)
    (hcaptured : x.storage = .captured) : x.name ∈ s.captured := by
  simp only [Symbol.SeenIn, hcaptured] at h
  obtain ⟨-, source, hsource, hname⟩ := h
  refine List.mem_toFinset.2 (List.mem_map.2 ⟨source, ?_, hname⟩)
  exact Array.mem_toList_iff.2 (Array.mem_of_getElem? hsource)

/-- **What scopes capture when a function inside of them captures some names**:
each captures those that it has to capture, from the inside out. -/
inductive Spread : Finset String → List Scope → List Scope → Prop where
  | nil {names : Finset String} : Spread names [] []
  | cons {names : Finset String} {s s' : Scope} {rest rest' : List Scope} :
      s'.captured = s.captured ∪ (viewFrom s rest).captured names →
      Spread ((viewFrom s rest).captured names) rest rest' →
      Spread names (s :: rest) (s' :: rest')

namespace Spread

variable {names names' : Finset String} {scopes scopes₁ scopes₂ : List Scope}

/-- Where nothing is captured inside, nothing is captured around. -/
theorem empty (scopes : List Scope) : Spread ∅ scopes scopes := by
  induction scopes with
  | nil => exact .nil
  | cons s rest ih => exact .cons (by simp) (by simpa using ih)

/-- Names may be captured one after the other. What has to be captured for the
second one is not changed by the first, since captures bind nothing of the
function's own. -/
theorem trans (h₁ : Spread names scopes scopes₁) (hgrows : List.Forall₂ Scope.Grows scopes scopes₁)
    (h₂ : Spread names' scopes₁ scopes₂) : Spread (names ∪ names') scopes scopes₂ := by
  induction h₁ generalizing names' scopes₂ with
  | nil =>
    cases h₂
    exact .nil
  | cons hs hrest ih =>
    cases hgrows with
    | cons hnext hgrows =>
    cases h₂ with
    | cons hs' hrest' =>
      rw [viewFrom_of_grows hnext hgrows] at hs' hrest'
      refine .cons ?_ ?_
      · rw [hs', hs, View.captured_union, Finset.union_assoc]
      · rw [View.captured_union]
        exact ih hgrows hrest'

/-- A scope that need not capture a name leaves all scopes as they are. -/
theorem of_ne {s : Scope} {rest : List Scope} {name : String}
    (h : (viewFrom s rest).storage? name ≠ some .captured) :
    Spread {name} (s :: rest) (s :: rest) := by
  refine .cons ?_ ?_
  · rw [View.captured_singleton_of_ne h, Finset.union_empty]
  · rw [View.captured_singleton_of_ne h]
    exact empty rest

/-- What a function sees already, the functions around it have captured as far
as they have to. -/
theorem of_seen {s : Scope} {outer : List Scope} {x : Symbol} (h : Chain s outer)
    (houter : outer ≠ []) (hx : x.SeenIn s) : Spread {x.name} (s :: outer) (s :: outer) := by
  induction h generalizing x with
  | top => exact (houter rfl).elim
  | outermost hs hnone htop =>
    have hstorage := (Chain.outermost hs hnone htop).storage?_of_seen houter hx
    refine of_ne fun hcaptured => ?_
    rw [hstorage] at hcaptured
    simpa [Scope.captured, hnone] using hx.mem_captured (Option.some.inj hcaptured)
  | nested hs hcaptures hchain ih =>
    have hstorage := (Chain.nested hs hcaptures hchain).storage?_of_seen houter hx
    by_cases hcaptured : x.storage = .captured
    · have hmem := hx.mem_captured hcaptured
      obtain ⟨source, hsource, hname⟩ := List.mem_map.1 (List.mem_toFinset.1 hmem)
      have hrest := ih nofun (hcaptures source (Array.mem_toList_iff.1 hsource))
      have hsingleton := View.captured_singleton_of_eq (hcaptured ▸ hstorage)
      refine .cons ?_ ?_
      · rw [hsingleton, Finset.union_eq_left.2 (Finset.singleton_subset_iff.2 hmem)]
      · rwa [hsingleton, ← hname]
    · exact of_ne (by simpa [hstorage] using hcaptured)

/-- **Looking a name up captures it as far as it has to be captured.** -/
theorem resolveFrom {name : String} {s s' : Scope} {outer outer' : List Scope} {x : Symbol}
    (hc : Chain s outer) (h : SymbolTable.resolveFrom name s outer = some (x, s', outer')) :
    Spread {name} (s :: outer) (s' :: outer') := by
  have hstorage := storage?_of_resolveFrom hc h
  obtain ⟨-, -, -, hfound⟩ := SymbolTable.resolveFrom_spec hc h
  induction outer generalizing s s' outer' x with
  | nil =>
    obtain ⟨x', hfind, heq⟩ := Option.map_eq_some_iff.1 h
    cases heq
    refine of_ne fun hcaptured => ?_
    rw [hstorage] at hcaptured
    cases hfound with
    | shared hshared => simp [Option.some.inj hcaptured, Storage.isShared] at hshared
    | seen houter => exact houter rfl
  | cons next rest ih =>
    rw [SymbolTable.resolveFrom] at h
    split at h
    · next x' hfind =>
      cases h
      exact Scope.name_of_find? hfind ▸ of_seen hc (List.cons_ne_nil _ _)
        (hc.valid.seen name x hfind)
    · split at h
      · cases h
      · next x' next' rest' hrec =>
        have hstorage' := storage?_of_resolveFrom hc.tail hrec
        obtain ⟨-, -, -, hfound'⟩ := SymbolTable.resolveFrom_spec hc.tail hrec
        have hspread := ih hc.tail hrec hstorage' hfound'
        split at h
        · next hshared =>
          -- A global or a builtin function is captured nowhere.
          cases h
          have hne : some x.storage ≠ some .captured := by
            intro heq
            simp [Option.some.inj heq, Storage.isShared] at hshared
          have hnone := View.captured_singleton_of_ne (hstorage ▸ hne)
          have hnone' := View.captured_singleton_of_ne (hstorage' ▸ hne)
          cases hspread with
          | cons hnext hrest =>
            rw [hnone'] at hnext hrest
            refine .cons ?_ ?_
            · rw [hnone, Finset.union_empty]
            · rw [hnone]
              exact .cons hnext hrest
        · next hshared =>
          cases h
          cases hfound' with
          | shared hshared' => exact (hshared hshared').elim
          | seen _ hname =>
            have hsingleton := View.captured_singleton_of_eq hstorage
            refine .cons ?_ ?_
            · rw [hsingleton]
              exact hname ▸ s.captured_capture x'
            · rwa [hsingleton]

end Spread

/-! ## Constants -/

/-- The literal that a constant is, if it is not a function. -/
def Value.literal? (v : Value) : Option Literal :=
  match v with
  | .number n => some (.number n)
  | .string s => some (.string s)
  | _ => none

/-- A literal as a constant. -/
def Literal.value : Literal → Value
  | .number n => .number n
  | .string s => .string s

/-- A literal can be told from its value. Two literals are shared in the pool
exactly if they are the same in this sense. -/
theorem Literal.literal?_value (l : Literal) : l.value.literal? = some l := by
  cases l <;> rfl

/-- The pool is searched for the same literal, not for an equal value: a
negative zero is another literal than zero. -/
theorem Compile.sameLiteral_iff {l : Literal} {v : Value} :
    sameLiteral l.value v = true ↔ v.literal? = some l := by
  constructor
  · intro h
    rw [eq_of_sameLiteral h, l.literal?_value]
  · intro h
    cases v <;> cases h <;> exact BEq.refl _

/-- The literals of a pool, in order. -/
def literalsIn (pool : Array Value) : List Literal := pool.toList.filterMap Value.literal?

/-- The literals of a pool. -/
def literalSet (pool : Array Value) : Finset Literal := (literalsIn pool).toFinset

/-- The number of constants of a pool that are not literals. -/
def routinesIn (pool : Array Value) : Nat := pool.toList.countP fun v => v.literal? = none

section

variable {pool : Array Value} {l : Literal}

/-- **A pool that has no literal twice** has as many constants as there are
literals and routines. -/
theorem size_of_nodup (h : (literalsIn pool).Nodup) :
    pool.size = (literalSet pool).card + routinesIn pool := by
  have hcard : (literalSet pool).card = (literalsIn pool).length := List.toFinset_card_of_nodup h
  rw [hcard, literalsIn, List.length_filterMap_eq_countP, routinesIn, ← Array.length_toList,
    List.length_eq_countP_add_countP (fun v : Value => v.literal?.isSome)]
  simp

/-- A literal is looked for in vain exactly if it is not in the pool. -/
theorem findIdx?_eq_none_iff :
    pool.findIdx? (Compile.sameLiteral l.value) = none ↔ l ∉ literalSet pool := by
  rw [Array.findIdx?_eq_none_iff]
  simp [literalSet, literalsIn, ← Compile.sameLiteral_iff]

/-- A literal that joins the pool is one of its literals. -/
theorem literalsIn_push_literal : literalsIn (pool.push l.value) = literalsIn pool ++ [l] := by
  simp [literalsIn, l.literal?_value]

/-- It is no routine. -/
theorem routinesIn_push_literal : routinesIn (pool.push l.value) = routinesIn pool := by
  simp [routinesIn, l.literal?_value]

/-- A routine that joins the pool is none of its literals. -/
theorem literalsIn_push_routine (body : Routine) :
    literalsIn (pool.push (.routine body)) = literalsIn pool := by
  simp [literalsIn, Value.literal?]

/-- It is one routine more. -/
theorem routinesIn_push_routine (body : Routine) :
    routinesIn (pool.push (.routine body)) = routinesIn pool + 1 := by
  simp [routinesIn, Value.literal?]

end

namespace Setting

variable {c c' : Setting} {l : Literal} {index : UInt16}

/-- **What becomes of a literal**: it is in the pool already, or joins it. -/
theorem intern_spec (h : c.intern l.value = some (index, c')) :
    literalSet c'.constants = literalSet c.constants ∪ {l} ∧
      routinesIn c'.constants = routinesIn c.constants ∧
      ((literalsIn c.constants).Nodup → (literalsIn c'.constants).Nodup) := by
  unfold intern at h
  split at h
  · next i hi =>
    obtain ⟨-, heq⟩ := Option.ite_none_right_eq_some.1 h
    cases heq
    have hmem : l ∈ literalSet c.constants :=
      not_not.1 fun hmem => by simp [findIdx?_eq_none_iff.2 hmem] at hi
    exact ⟨(Finset.union_eq_left.2 (Finset.singleton_subset_iff.2 hmem)).symm, rfl, id⟩
  · next hnone =>
    obtain ⟨-, heq⟩ := Option.ite_none_right_eq_some.1 h
    cases heq
    have hmem := findIdx?_eq_none_iff.1 hnone
    refine ⟨?_, routinesIn_push_literal, fun hnodup => ?_⟩
    · rw [literalSet, literalsIn_push_literal, List.toFinset_append]
      rfl
    · rw [literalsIn_push_literal]
      refine hnodup.append (List.nodup_singleton l) ?_
      simpa [literalSet] using hmem

/-- **A literal joins the pool if there is room.** -/
theorem exists_intern (hc : (literalsIn c.constants).Nodup)
    (h : (literalSet c.constants ∪ {l}).card + routinesIn c.constants ≤ 65536) :
    ∃ index c', c.intern l.value = some (index, c') := by
  have hsize := size_of_nodup hc
  unfold intern
  cases hfind : c.constants.findIdx? (Compile.sameLiteral l.value) with
  | some i =>
    obtain ⟨hlt, -⟩ := Array.findIdx?_eq_some_iff_getElem.1 hfind
    have hcard : (literalSet c.constants).card ≤ (literalSet c.constants ∪ {l}).card :=
      Finset.card_le_card Finset.subset_union_left
    exact ⟨_, _, if_pos (by omega)⟩
  | none =>
    have hcard : (literalSet c.constants ∪ {l}).card = (literalSet c.constants).card + 1 := by
      rw [Finset.card_union_of_disjoint, Finset.card_singleton]
      exact Finset.disjoint_singleton_right.2 (findIdx?_eq_none_iff.1 hfind)
    exact ⟨_, _, if_pos (by omega)⟩

end Setting

/-! ## Views and demands of phrases -/

namespace SymbolTable

variable {t : SymbolTable}

/-- A table comes about if parameters are bound in one that does. -/
theorem Reachable.defineAll (h : t.Reachable) (params : List Ident) :
    (t.defineAll params).Reachable := by
  induction params generalizing t with
  | nil => exact h
  | cons x rest ih => exact ih (h.define x.name)

/-- So does the table at the beginning of a function. -/
theorem Reachable.enterFunction (h : t.Reachable) (name : Option String) (params : List Ident) :
    (t.enterFunction name params).Reachable := by
  cases name with
  | none => exact h.enter.defineAll params
  | some name => exact (h.enter.defineItself name).defineAll params

/-- **What a name is looked up as** is where the view says. -/
theorem Coherent.storage?_of_resolve {t' : SymbolTable} {name : String} {x : Symbol}
    (h : t.Coherent) (hresolve : t.resolve name = some (x, t')) :
    t.view.storage? name = some x.storage := by
  obtain ⟨found, hrec, heq⟩ := Option.map_eq_some_iff.1 hresolve
  cases heq
  exact storage?_of_resolveFrom h hrec

/-- **A name that is looked up is captured** as far as it has to be. -/
theorem Coherent.spread_resolve {t' : SymbolTable} {name : String} {x : Symbol} (h : t.Coherent)
    (hresolve : t.resolve name = some (x, t')) :
    t'.inner.captured = t.inner.captured ∪ t.view.captured {name} ∧
      Spread (t.view.captured {name}) t.outer t'.outer := by
  obtain ⟨found, hrec, heq⟩ := Option.map_eq_some_iff.1 hresolve
  cases heq
  cases Spread.resolveFrom h hrec with
  | cons hcaptured hspread => exact ⟨hcaptured, hspread⟩

/-- A function begins without captures. -/
theorem captures_enterFunction (t : SymbolTable) (name : Option String) (params : List Ident) :
    (t.enterFunction name params).inner.captures = #[] := by
  have hparams : ∀ t : SymbolTable, (t.defineAll params).inner.captures = t.inner.captures := by
    induction params with
    | nil => exact fun _ => rfl
    | cons x rest ih => exact fun t => ih _
  cases name <;> exact hparams _

/-- A place is in a function if the compiler is not at the top level. -/
theorem inFunction_view : t.view.inFunction = !t.isGlobal := inFunction_viewFrom

/-- **A function begins with the view that its literal gives it.** -/
theorem view_enterFunction (t : SymbolTable) (name : Option String) (params : List Ident) :
    (t.enterFunction name params).view = t.view.inside name params := by
  have hnames := names_enterFunction t name params
  have houter := outer_enterFunction t name params
  unfold view viewFrom
  rw [houter, hnames]
  obtain ⟨inner, outer⟩ := t
  cases outer <;> rfl

end SymbolTable

/-- The view after a phrase has been compiled is the view after the phrase. -/
theorem Setting.Extends.view {c c' : Setting} {p : Phrase}
    (h : c.Extends (p.skip c.symbols.inner.names) c') :
    c'.symbols.view = c.symbols.view.after p := by
  have houter := viewFrom_of_grows (.refl c.symbols.inner) h.outer
  show { viewFrom c.symbols.inner c'.symbols.outer with own := c'.symbols.inner.names } = _
  rw [houter, h.names]
  rfl

/-- Compiling leads to tables that come about. -/
theorem Writes.reachable {c c' : Setting} {start : Nat} {p : Phrase} {is : List Instruction}
    (h : Writes c start p is c') (hc : c.symbols.Reachable) : c'.symbols.Reachable := by
  induction h with
  | ident hresolve => exact hc.resolve hresolve
  | number _ hintern | string hintern => rwa [Setting.symbols_of_intern hintern]
  | boolean | exprsNil | pairsNil | branchNil | bodyNil | stmtsNil => exact hc
  | unary _ ih | array _ _ ih | map _ _ ih | branchExpr _ ih | bodyExpr _ ih | bodyRet _ _ ih
  | stmtExpr _ ih | stmtRet _ _ ih => exact ih hc
  | stmtBind _ _ ih => exact (ih hc).define _
  | less _ _ ih₁ ih₂ | binary _ _ _ ih₁ ih₂ | call _ _ _ ih₁ ih₂ | index _ _ ih₁ ih₂
  | exprsCons _ _ ih₁ ih₂ | branchCons _ _ _ ih₁ ih₂ | bodyCons _ _ _ ih₁ ih₂
  | stmtsCons _ _ ih₁ ih₂ => exact ih₂ (ih₁ hc)
  | cond _ _ _ _ _ _ _ ih₁ ih₂ ih₃ | pairsCons _ _ _ ih₁ ih₂ ih₃ => exact ih₃ (ih₂ (ih₁ hc))
  | function _ _ hleave _ _ _ ih => exact (ih (hc.enterFunction _ _)).leave hleave

/-- The table that programs start from comes about. -/
theorem SymbolTable.reachable_initial : SymbolTable.initial.Reachable := by
  refine List.foldlRecOn (motive := Reachable) _ _ .empty fun t ht x _ => ?_
  obtain ⟨b, index⟩ := x
  exact ht.defineBuiltin index b.name

/-- So do the tables between two programs. -/
theorem Compiler.Reached.reachable {c : Compiler} (h : Reached c) : c.symbols.Reachable := by
  induction h with
  | initial => exact SymbolTable.reachable_initial
  | compile h hcompile ih =>
    obtain ⟨is, hw, -⟩ := h.level.1.laid hcompile
    exact hw.reachable ih
  | restate _ ih => exact ih

namespace View

variable (v : View)

/-- What an operator demands, for all operators but the one whose sides are
exchanged. -/
theorem demand_binary {op : BinaryOp} (left right : Expr) (span : Span) (h : op ≠ .less) :
    v.demand (.binary op left right span) =
      v.demand left ++ ((v.after (.expr left)).demand right ++ .bytes 1) := by
  rw [demand]
  exact h

/-- What a function literal demands, with its block taken apart. -/
theorem demand_function (name : Option String) (params : List Ident) (block : Block) (span : Span) :
    v.demand (.function name params block span) =
      .closure v ((v.inside name params).demandBlock block.body) := by
  cases block
  rw [demand]
  rfl

/-- What a branch demands is what its statements demand, as a branch. -/
theorem demandBranch_eq (block : Block) :
    v.demandBranch block = Phrase.demand v (.branch block.body) := by
  cases block
  rw [demandBranch]
  rfl

/-- The same for the branch that may be missing, which is worth null then. -/
theorem demandOther_eq (no : Option Block) :
    v.demandOther no = Phrase.demand v (.branch (otherwise no)) := by
  cases no with
  | none => rw [demandOther, otherwise, Phrase.demand, demandBlock]; rfl
  | some block => rw [demandOther, otherwise, demandBranch_eq]

/-- Statements that end in an expression discard its value. -/
theorem width_pos_of_endsInExpr {block : List Stmt} (h : endsInExpr block = true) :
    1 ≤ (v.demandBlock block).width := by
  induction block generalizing v with
  | nil => cases h
  | cons s rest ih =>
    rw [demandBlock, Demand.width_append]
    by_cases hlast : rest = [] → s.isExpr = false
    · rw [endsInExpr_cons hlast] at h
      exact Nat.le_add_left_of_le (ih _ h)
    · obtain ⟨rfl, hs⟩ := Classical.not_imp.1 hlast
      cases s with
      | expr e span =>
        rw [demandStmt, Demand.width_append]
        exact Nat.le_add_right_of_le (Nat.le_add_left ..)
      | bind | ret => exact (hs rfl).elim

/-- A branch that is a single expression demands what the expression demands:
its value is not discarded. -/
theorem demand_branch_expr (e : Expr) (span : Span) :
    Phrase.demand v (.branch [.expr e span]) = v.demand e := by
  rw [Phrase.demand, demandBlock, demandBlock, demandStmt]
  ext <;> simp [Demand.asBranch, Demand.bytes, endsInExpr, Stmt.isExpr]

/-- Any other branch demands what its first statement demands, and then the rest
as a branch. -/
theorem demand_branch_cons {s : Stmt} {rest : List Stmt} (h : rest = [] → s.isExpr = false) :
    Phrase.demand v (.branch (s :: rest)) =
      v.demandStmt s ++ Phrase.demand (v.after (.stmt s)) (.branch rest) := by
  rw [Phrase.demand, Phrase.demand, demandBlock, Demand.asBranch, Demand.asBranch,
    endsInExpr_cons h]
  have hwidth := fun hlast : endsInExpr rest = true =>
    (v.after (.stmt s)).width_pos_of_endsInExpr hlast
  ext
  case width =>
    cases hlast : endsInExpr rest with
    | false => simp [Nat.add_assoc]
    | true => simp [Nat.add_sub_assoc (hwidth hlast)]
  all_goals simp

/-- A body that ends in a value demands what its last statement demands, for the
instruction that would discard the value returns it instead. -/
theorem demand_body_last {s : Stmt} (h : s.isBind = false) :
    Phrase.demand v (.body [s]) = v.demandStmt s := by
  rw [Phrase.demand, demandBlock, demandBlock]
  ext <;> simp [Demand.asBody, Demand.bytes, h]

/-- Any other body demands what its first statement demands, and then the rest
as a body. -/
theorem demand_body_cons {s : Stmt} {rest : List Stmt} (h : rest = [] → s.isBind = true) :
    Phrase.demand v (.body (s :: rest)) =
      v.demandStmt s ++ Phrase.demand (v.after (.stmt s)) (.body rest) := by
  have hlast : (s :: rest).getLast?.any (!·.isBind) = rest.getLast?.any (!·.isBind) := by
    cases rest with
    | nil => simp [h rfl]
    | cons => rw [List.getLast?_cons_cons]
  rw [Phrase.demand, Phrase.demand, demandBlock, Demand.asBody, Demand.asBody, hlast]
  ext
  case width =>
    cases rest.getLast?.any (!·.isBind) <;> simp [Nat.add_assoc]
  all_goals simp

end View

/-- The bytes of the instruction that reads a name. -/
theorem Symbol.size_of_load? {x : Symbol} {i : Instruction} (h : x.load? = some i) :
    i.size = x.storage.width := by
  obtain ⟨name, storage, index⟩ := x
  cases storage with
  | itself => cases h; rfl
  | global | frame | builtin | captured =>
    obtain ⟨-, heq⟩ := Option.ite_none_right_eq_some.1 h
    cases heq
    rfl

/-- The instructions that load what a closure captures have as many bytes as
reading each of the names takes. The names are distinct, so a sum over the set
of names counts each of them once. -/
theorem sizeAll_of_loads? {symbols : List Symbol} {loads : List Instruction} {v : View}
    (h : Symbol.loads? symbols = some loads) (hnodup : (symbols.map Symbol.name).Nodup)
    (hreads : ∀ x ∈ symbols, v.reading x.name = x.storage.width) :
    sizeAll loads = ∑ name ∈ (symbols.map Symbol.name).toFinset, v.reading name := by
  induction symbols generalizing loads with
  | nil =>
    cases h
    rfl
  | cons x rest ih =>
    rw [Symbol.loads?] at h
    split at h
    · next i is hload hrest =>
      cases h
      obtain ⟨hmem, hnodup⟩ := List.nodup_cons.1 hnodup
      obtain ⟨hx, hreads⟩ := List.forall_mem_cons.1 hreads
      rw [Instruction.sizeAll_cons, List.map_cons, List.toFinset_cons,
        Finset.sum_insert (List.mem_toFinset.not.2 hmem), hx, Symbol.size_of_load? hload,
        ih hrest hnodup hreads]
    · cases h

/-- The bytes of the instruction that sets a variable just bound. -/
theorem SymbolTable.size_of_store? {t : SymbolTable} {name : String} {i : Instruction}
    (h : (t.define name).1.store? = some i) : i.size = if t.view.inFunction then 2 else 3 := by
  obtain ⟨inner, outer⟩ := t
  cases outer with
  | nil | cons =>
    obtain ⟨-, heq⟩ := Option.ite_none_right_eq_some.1 h
    cases heq
    rfl

/-! ## Meeting the demand -/

/-- **Code that meets a demand**, from one setting to the next. -/
structure Meets (c : Setting) (d : Demand) (is : List Instruction) (c' : Setting) : Prop where
  /-- The function captures the names that are demanded. -/
  captured : c'.symbols.inner.captured = c.symbols.inner.captured ∪ d.captures
  /-- The functions around it capture those that they have to. -/
  spread : Spread d.captures c.symbols.outer c'.symbols.outer
  /-- They bind nothing. -/
  grows : List.Forall₂ Scope.Grows c.symbols.outer c'.symbols.outer
  /-- The literals join the pool. -/
  literals : literalSet c'.constants = literalSet c.constants ∪ d.literals
  /-- So do the functions. -/
  routines : routinesIn c'.constants = routinesIn c.constants + d.functions
  /-- No literal joins the pool twice. -/
  nodup : (literalsIn c.constants).Nodup → (literalsIn c'.constants).Nodup
  /-- The code has as many bytes as it is said to have. -/
  size : sizeAll is = d.width

namespace Meets

variable {c c₁ c₂ : Setting} {d e : Demand} {is js : List Instruction} {n : Nat}

/-- Code of so many bytes that neither reads names nor adds constants. -/
theorem bytes (h : sizeAll is = n) : Meets c (.bytes n) is c where
  captured := (Finset.union_empty _).symm
  spread := .empty _
  grows := List.forall₂_same.2 fun s _ => .refl s
  literals := (Finset.union_empty _).symm
  routines := rfl
  nodup := id
  size := h

/-- One phrase after another meets both demands. -/
theorem trans (h₁ : Meets c d is c₁) (h₂ : Meets c₁ e js c₂) : Meets c (d ++ e) (is ++ js) c₂ where
  captured := by rw [h₂.captured, h₁.captured, Finset.union_assoc]; rfl
  spread := h₁.spread.trans h₁.grows h₂.spread
  grows := grows_trans h₁.grows h₂.grows
  literals := by rw [h₂.literals, h₁.literals, Finset.union_assoc]; rfl
  routines := by rw [h₂.routines, h₁.routines, Nat.add_assoc]; rfl
  nodup := h₂.nodup ∘ h₁.nodup
  size := by rw [Instruction.sizeAll_append, h₁.size, h₂.size]; rfl

/-- An instruction before others. -/
theorem cons {i : Instruction} (hi : i.size = n) (h : Meets c e js c₂) :
    Meets c (.bytes n ++ e) (i :: js) c₂ :=
  (bytes hi : Meets c (.bytes n) [i] c).trans h

/-- A literal is found in the pool or joins it. In both cases the pool has it
afterwards, and has it once. -/
theorem literal {l : Literal} {index : UInt16} (h : c.intern l.value = some (index, c₁)) :
    Meets c (.literal l) [.constant index] c₁ := by
  obtain ⟨hliterals, hroutines, hnodup⟩ := Setting.intern_spec h
  have hsymbols := Setting.symbols_of_intern h
  have hsame : Meets c (.bytes 3) [.constant index] c := bytes rfl
  exact ⟨by rw [hsymbols]; exact hsame.captured, by rw [hsymbols]; exact hsame.spread,
    by rw [hsymbols]; exact hsame.grows, hliterals, hroutines, hnodup, rfl⟩

/-- **Reading a name.** -/
theorem name {name : String} {x : Symbol} {t : SymbolTable} {i : Instruction}
    (hc : c.symbols.Coherent) (h : c.symbols.resolve name = some (x, t))
    (hload : x.load? = some i) :
    Meets c (.name c.symbols.view name) [i] { c with symbols := t } := by
  obtain ⟨-, -, houter, -⟩ := hc.resolve h
  obtain ⟨hcaptured, hspread⟩ := hc.spread_resolve h
  refine ⟨hcaptured, hspread, houter, (Finset.union_empty _).symm, rfl, id, ?_⟩
  show i.size + 0 = c.symbols.view.reading name
  rw [View.reading, hc.storage?_of_resolve h]
  exact Symbol.size_of_load? hload

/-- **A variable that is bound.** -/
theorem bind {name : String} {i : Instruction} (h : (c.symbols.define name).1.store? = some i) :
    Meets c (.bytes (if c.symbols.view.inFunction then 2 else 3)) [i]
      { c with symbols := (c.symbols.define name).2 } :=
  have hsame : Meets c _ [i] c := bytes (SymbolTable.size_of_store? h)
  ⟨hsame.captured, hsame.spread, hsame.grows, hsame.literals, hsame.routines, hsame.nodup,
    hsame.size⟩

/-- **A function literal**, when its body has been compiled. -/
theorem function {name : Option String} {params : List Ident} {block : List Stmt} {t : SymbolTable}
    {body : Routine} {loads : List Instruction} {constant : UInt16} {count : UInt8}
    (h : Meets { c with symbols := c.symbols.enterFunction name params }
      (Phrase.demand (c.symbols.view.inside name params) (.body block)) is c₁)
    (hc : c₁.symbols.Coherent) (hreachable : c₁.symbols.Reachable)
    (hleave : c₁.symbols.leave? = some t)
    (hloads : Symbol.loads? c₁.symbols.inner.captures.toList = some loads) :
    Meets c (.closure c.symbols.view ((c.symbols.view.inside name params).demandBlock block))
      (loads ++ [.makeClosure constant count]) ⟨t, c₁.constants.push (.routine body)⟩ := by
  -- The innermost of the scopes around the body is the one that is returned to,
  -- so what has spread to it belongs to this function.
  have houter := SymbolTable.outer_of_leave? hleave
  have hspread := h.spread
  have hgrows := h.grows
  have hcaptured := h.captured
  rw [SymbolTable.outer_enterFunction, houter] at hspread hgrows
  rw [Scope.captured_of_captures (SymbolTable.captures_enterFunction ..),
    Finset.empty_union] at hcaptured
  cases hspread with
  | cons hinner hrest =>
  cases hgrows with
  | cons hinner' hrest' =>
    refine ⟨hinner, hrest, hrest', ?_, ?_, ?_, ?_⟩
    · rw [literalSet, literalsIn_push_routine]
      exact h.literals
    · rw [routinesIn_push_routine, h.routines]
      rfl
    · rw [literalsIn_push_routine]
      exact h.nodup
    · have hchain : Chain c₁.symbols.inner (t.inner :: t.outer) := houter ▸ hc
      -- What a capture costs to load depends on where this function has it.
      have hreads : ∀ source ∈ c₁.symbols.inner.captures.toList,
          c.symbols.view.reading source.name = source.storage.width := by
        intro source hsource
        obtain ⟨hne, hseen⟩ := hchain.captures_seen source hsource
        have hstorage := hchain.tail.storage?_of_seen hne hseen
        rw [viewFrom_of_grows hinner' hrest'] at hstorage
        rw [View.reading, show c.symbols.view.storage? source.name = _ from hstorage]
        rfl
      have hsum : sizeAll loads = ∑ name ∈ c₁.symbols.inner.captured, c.symbols.view.reading name :=
        sizeAll_of_loads? hloads hreachable.wired.kept.once hreads
      rw [Instruction.sizeAll_append, hsum, hcaptured]
      rfl

end Meets

namespace Writes

variable {c c₁ c₂ : Setting} {start : Nat} {p q : Phrase} {is js : List Instruction}

/-- One phrase is compiled after another. -/
theorem meets_next (h : Writes c start p is c₁) (hc : c.symbols.Coherent) (hr : c.symbols.Reachable)
    (hnext : c₁.symbols.Coherent → c₁.symbols.Reachable →
      Meets c₁ (q.demand c₁.symbols.view) js c₂) :
    Meets c₁ (q.demand (c.symbols.view.after p)) js c₂ :=
  (h.extends hc).view ▸ hnext (h.extends hc).coherent (h.reachable hr)

/-- **Compiled code meets the demand of its phrase.** -/
theorem meets (h : Writes c start p is c₁) (hc : c.symbols.Coherent) (hr : c.symbols.Reachable) :
    Meets c (p.demand c.symbols.view) is c₁ := by
  induction h with
  | ident hresolve hload =>
    rw [Phrase.demand, View.demand]
    exact .name hc hresolve hload
  | number _ hintern =>
    rw [Phrase.demand, View.demand]
    exact .literal (l := .number _) hintern
  | string hintern =>
    rw [Phrase.demand, View.demand]
    exact .literal (l := .string _) hintern
  | boolean =>
    rw [Phrase.demand, View.demand]
    refine .bytes ?_
    split <;> rfl
  | exprsNil => rw [Phrase.demand, View.demandAll]; exact .bytes rfl
  | pairsNil => rw [Phrase.demand, View.demandPairs]; exact .bytes rfl
  | stmtsNil | branchNil | bodyNil => rw [Phrase.demand, View.demandBlock]; exact .bytes rfl
  | @unary _ _ _ op _ _ _ _ ih =>
    rw [Phrase.demand, View.demand]
    exact (ih hc hr).trans (.bytes (by cases op <;> rfl))
  | array _ _ ih | map _ _ ih =>
    rw [Phrase.demand, View.demand]
    exact (ih hc hr).trans (.bytes rfl)
  | branchExpr _ ih =>
    rw [View.demand_branch_expr]
    exact ih hc hr
  | bodyExpr _ ih | bodyRet _ _ ih =>
    rw [View.demand_body_last _ rfl, View.demandStmt]
    exact (ih hc hr).trans (.bytes rfl)
  | stmtExpr _ ih | stmtRet _ _ ih =>
    rw [Phrase.demand, View.demandStmt]
    exact (ih hc hr).trans (.bytes rfl)
  | stmtBind h hstore ih =>
    rw [Phrase.demand, View.demandStmt]
    have hfunction := congrArg View.inFunction (h.extends hc).view
    exact (ih hc hr).trans (hfunction ▸ .bind hstore)
  | less h₁ _ ih₁ ih₂ | call h₁ _ _ ih₁ ih₂ | index h₁ _ ih₁ ih₂ =>
    rw [Phrase.demand, View.demand]
    exact (ih₁ hc hr).trans ((h₁.meets_next hc hr ih₂).trans (.bytes rfl))
  | @binary _ _ _ _ op _ _ _ _ _ hop h₁ _ ih₁ ih₂ =>
    rw [Phrase.demand, View.demand_binary _ _ _ _ hop]
    exact (ih₁ hc hr).trans ((h₁.meets_next hc hr ih₂).trans (.bytes (by cases op <;> rfl)))
  | exprsCons h₁ _ ih₁ ih₂ =>
    rw [Phrase.demand, View.demandAll]
    exact (ih₁ hc hr).trans (h₁.meets_next hc hr ih₂)
  | stmtsCons h₁ _ ih₁ ih₂ =>
    rw [Phrase.demand, View.demandBlock]
    exact (ih₁ hc hr).trans (h₁.meets_next hc hr ih₂)
  | branchCons hlast h₁ _ ih₁ ih₂ =>
    rw [View.demand_branch_cons _ hlast]
    exact (ih₁ hc hr).trans (h₁.meets_next hc hr ih₂)
  | bodyCons hlast h₁ _ ih₁ ih₂ =>
    rw [View.demand_body_cons _ hlast]
    exact (ih₁ hc hr).trans (h₁.meets_next hc hr ih₂)
  | pairsCons h₁ h₂ _ ih₁ ih₂ ih₃ =>
    rw [Phrase.demand, View.demandPairs]
    have hext := h₁.extends hc
    have hlast := h₂.meets_next hext.coherent (h₁.reachable hr) ih₃
    rw [hext.view] at hlast
    exact (ih₁ hc hr).trans ((h₁.meets_next hc hr ih₂).trans hlast)
  | cond h₁ h₂ _ _ _ _ _ ih₁ ih₂ ih₃ =>
    rw [Phrase.demand, View.demand, View.demandBranch_eq, View.demandOther_eq]
    have hext := h₁.extends hc
    have hlast := h₂.meets_next hext.coherent (h₁.reachable hr) ih₃
    rw [hext.view] at hlast
    exact (ih₁ hc hr).trans (.cons rfl ((h₁.meets_next hc hr ih₂).trans (.cons rfl hlast)))
  | @function _ _ _ name params _ _ _ _ _ _ hbody hleave _ hloads _ ih =>
    rw [Phrase.demand, View.demand_function]
    -- The body makes its demand inside, with names of its own.
    have hc' := hc.enterFunction name params
    have hr' := hr.enterFunction name params
    have hbody' := ih hc' hr'
    rw [SymbolTable.view_enterFunction] at hbody'
    exact hbody'.function (hbody.extends hc').coherent (hbody.reachable hr') hleave hloads

end Writes

end StackScript
