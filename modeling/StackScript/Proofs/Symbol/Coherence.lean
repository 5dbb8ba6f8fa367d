import Mathlib.Data.List.Forall2
import StackScript.Proofs.Code.Operands
import StackScript.Proofs.Compiler.Layout
import StackScript.Proofs.Evaluator.Basic

/-!
# What the compiler knows of names

The compiler's table of names says where values live, the evaluator's names say
what binds them. This file relates the two. A scope has its **own** binders
(`Scope.own`), which are the evaluator's names of that function; besides these
it binds the names it has captured, and the outermost scope binds the builtin
functions.

What is found in a table of names can be relied on because the table is
**coherent** (`SymbolTable.Coherent`): a captured name is no name of the scope's
own, it has a place among the captures, and what it was captured from can be
seen in the next scope under the same name (`Symbol.SeenIn`). Looking a name up
makes captures, and leaves everything else as it was (`Scope.Grows`).
-/

namespace StackScript

/-- What is found in a list of names is in it. A name may be bound several
times, and what is found is the last binding. -/
theorem mem_of_lookup {α : Type} {name : String} {a : α} {xs : List (String × α)}
    (h : xs.lookup name = some a) : (name, a) ∈ xs := by
  obtain ⟨front, back, rfl, -⟩ := List.lookup_eq_some_iff.1 h
  exact List.mem_append_right front List.mem_cons_self

/-- Nothing is found for a name that is not bound. -/
theorem lookup_eq_none_iff_notMem {α : Type} {name : String} {xs : List (String × α)} :
    xs.lookup name = none ↔ name ∉ xs.map (·.1) := by
  rw [List.lookup_eq_none_iff, List.mem_map]
  constructor
  · rintro h ⟨entry, hentry, rfl⟩
    simpa using h entry hentry
  · intro h entry hentry
    exact bne_iff_ne.2 fun heq => h ⟨entry, hentry, heq.symm⟩

/-- What a symbol of a scope is bound to, if it is one of the scope's own. -/
def Symbol.binder? (x : Symbol) : Option Binder :=
  match x.storage with
  | .global | .frame => some (.site x.index)
  | .itself => some .itself
  | .builtin | .captured => none

namespace Scope

/-- **The names that a scope binds itself**, the latest first. -/
def own (s : Scope) : List (String × Binder) :=
  s.bindings.filterMap fun x => x.binder?.map (x.name, ·)

/-- The names of a scope as the evaluator has them. -/
def names (s : Scope) : Names := ⟨s.own, s.definitions⟩

/-- A binding of the scope's own is the newest of its names. -/
theorem own_bind_of_some {s : Scope} {x : Symbol} {b : Binder} (h : x.binder? = some b) :
    (s.bind x).own = (x.name, b) :: s.own := by
  rw [own, own, bind, List.filterMap_cons, h]
  rfl

/-- A builtin function or a capture is bound without becoming one of the scope's
own names. -/
theorem own_bind_of_none {s : Scope} {x : Symbol} (h : x.binder? = none) :
    (s.bind x).own = s.own := by
  rw [own, own, bind, List.filterMap_cons, h]
  rfl

/-- A new binding hides the older ones of its name, and no others. -/
theorem find?_bind (s : Scope) (x : Symbol) (name : String) :
    (s.bind x).find? name = if x.name == name then some x else s.find? name := by
  rw [find?, bind, List.find?_cons]
  split <;> simp_all [find?]

/-- A symbol that is found for a name has this name. -/
theorem name_of_find? {s : Scope} {name : String} {x : Symbol} (h : s.find? name = some x) :
    x.name = name := by
  have := List.find?_some h
  exact eq_of_beq this

/-- A name that is not found is none of the scope's own. -/
theorem lookup_own_of_find?_none {s : Scope} {name : String} (h : s.find? name = none) :
    s.own.lookup name = none := by
  rw [find?, List.find?_eq_none] at h
  rw [List.lookup_eq_none_iff]
  intro entry hmem
  obtain ⟨x, hx, hsome⟩ := List.mem_filterMap.1 hmem
  obtain ⟨b, -, rfl⟩ := Option.map_eq_some_iff.1 hsome
  have := h x hx
  simpa [BEq.comm] using this

/-- A name that is found as one of the scope's own is bound to what was
found. -/
theorem lookup_own_of_find? {s : Scope} {name : String} {x : Symbol} {b : Binder}
    (h : s.find? name = some x) (hb : x.binder? = some b) : s.own.lookup name = some b := by
  obtain ⟨bindings, definitions, captures⟩ := s
  induction bindings with
  | nil => cases h
  | cons y rest ih =>
    rw [show (⟨y :: rest, definitions, captures⟩ : Scope) =
      (⟨rest, definitions, captures⟩ : Scope).bind y from rfl] at h ⊢
    rw [find?_bind] at h
    split at h
    · next heq =>
      cases h
      rw [own_bind_of_some hb, List.lookup_cons, BEq.comm, heq]
    · next hne =>
      cases hy : y.binder? with
      | none => rw [own_bind_of_none hy]; exact ih h
      | some b' =>
        rw [own_bind_of_some hy, List.lookup_cons, BEq.comm, Bool.eq_false_iff.2 hne]
        exact ih h

end Scope

/-- **Where a name of an inner function is found in a scope**: among the scope's
own names, or among what the scope has captured under that name. -/
def Symbol.SeenIn (x : Symbol) (s : Scope) : Prop :=
  match x.storage with
  | .frame | .itself => s.own.lookup x.name = x.binder?
  | .captured => s.own.lookup x.name = none ∧
      ∃ source, s.captures[x.index]? = some source ∧ source.name = x.name
  | .global | .builtin => False

namespace Scope

/-- **A scope of a function that can be relied on.** -/
structure Valid (s : Scope) : Prop where
  /-- What is found has a place. -/
  seen : ∀ name x, s.find? name = some x → x.SeenIn s
  /-- The variables are among those that have been counted. -/
  bounded : ∀ name n, (name, Binder.site n) ∈ s.own → n < s.definitions

/-- **A scope of the top level that can be relied on**: what is found is a
global, or a builtin function that no global hides. -/
structure IsTop (s : Scope) : Prop where
  /-- Nothing is captured. -/
  captures : s.captures = #[]
  /-- What is found has a place. -/
  seen : ∀ name x, s.find? name = some x → x.storage = .global ∨
    x.storage = .builtin ∧ s.own.lookup name = none ∧
      ∃ b, Builtin.ofIndex? x.index = some b ∧ Builtin.ofName? name = some b

/-- **A scope after names were looked up**: there are more captures. -/
structure Grows (s s' : Scope) : Prop where
  /-- The scope's own names are the same. -/
  own : s'.own = s.own
  /-- So is their number. -/
  definitions : s'.definitions = s.definitions
  /-- Captures keep their places. -/
  captures : s.captures.toList <+: s'.captures.toList
  /-- What was found is found as before. -/
  found : ∀ name x, s.find? name = some x → s'.find? name = some x

/-- Where nothing is looked up, nothing changes. -/
theorem Grows.refl (s : Scope) : s.Grows s := ⟨rfl, rfl, List.prefix_refl _, fun _ _ h => h⟩

/-- Names can be looked up one after the other. -/
theorem Grows.trans {s s₁ s₂ : Scope} (h₁ : s.Grows s₁) (h₂ : s₁.Grows s₂) : s.Grows s₂ :=
  ⟨h₂.own.trans h₁.own, h₂.definitions.trans h₁.definitions, h₁.captures.trans h₂.captures,
    fun name x h => h₂.found name x (h₁.found name x h)⟩

end Scope

/-- A symbol that has its place in a scope keeps it when names are looked up
there, since captures are only added. -/
theorem Symbol.SeenIn.mono {x : Symbol} {s s' : Scope} (h : x.SeenIn s) (hs : s.Grows s') :
    x.SeenIn s' := by
  obtain ⟨name, storage, place⟩ := x
  cases storage with
  | frame | itself => exact (congrArg (List.lookup name) hs.own).trans h
  | captured =>
    obtain ⟨hown, source, hsource, hname⟩ := h
    exact ⟨hs.own ▸ hown, source, getElem?_of_isPrefixOf hs.captures hsource, hname⟩
  | global | builtin => exact h

namespace Scope

/-! ## Binding and capturing -/

/-- A scope begins with no names, so there is nothing to rely on yet. -/
theorem valid_empty : empty.Valid := ⟨nofun, nofun⟩

/-- A new binder of the scope's own hides the older ones of its name and nothing
else. -/
theorem Valid.bind {s : Scope} {x : Symbol} {b : Binder} (hs : s.Valid) (hb : x.binder? = some b)
    (hplace : x.storage ≠ .global) (definitions : Nat) (hmore : s.definitions ≤ definitions)
    (hsite : ∀ n, b = .site n → n < definitions) :
    Valid { s.bind x with definitions } := by
  have hown : own { s.bind x with definitions } = (x.name, b) :: s.own := own_bind_of_some hb
  constructor
  · intro name y hfind
    rw [show find? { s.bind x with definitions } name = (s.bind x).find? name from rfl,
      find?_bind] at hfind
    split at hfind
    · cases hfind
      -- The new symbol is found first, under its own name.
      have hnew : (own { s.bind x with definitions }).lookup x.name = x.binder? := by
        rw [hown, List.lookup_cons, BEq.refl, hb]
      obtain ⟨name', storage, place⟩ := x
      cases storage with
      | frame | itself => exact hnew
      | captured | builtin => cases hb
      | global => cases hplace rfl
    · next hne =>
      -- Other names are found where they were.
      have hlookup : (own { s.bind x with definitions }).lookup y.name = s.own.lookup y.name := by
        rw [hown, List.lookup_cons, name_of_find? hfind, BEq.comm, Bool.eq_false_iff.2 hne]
      have hseen := hs.seen name y hfind
      obtain ⟨name', storage, place⟩ := y
      cases storage with
      | frame | itself => exact hlookup.trans hseen
      | captured => exact ⟨hlookup.trans hseen.1, hseen.2⟩
      | global | builtin => exact hseen
  · intro name n hmem
    rw [hown] at hmem
    rcases List.mem_cons.1 hmem with heq | hmem
    · exact hsite n (Prod.mk.inj heq).2.symm
    · exact Nat.lt_of_lt_of_le (hs.bounded name n hmem) hmore

/-- A capture is added at the end, so the others keep their places. -/
theorem captures_capture (s : Scope) (source : Symbol) :
    s.captures.toList <+: (s.capture source).2.captures.toList := by
  show s.captures.toList <+: (s.captures.push source).toList
  rw [Array.toList_push]
  exact List.prefix_append _ _

/-- A name is captured only if it is not found. -/
theorem grows_capture {s : Scope} {source : Symbol} (h : s.find? source.name = none) :
    s.Grows (s.capture source).2 := by
  refine ⟨own_bind_of_none rfl, rfl, captures_capture s source, fun name x hfind => ?_⟩
  rw [show (s.capture source).2.find? name = (s.bind (s.capture source).1).find? name from rfl,
    find?_bind, if_neg]
  · exact hfind
  · intro heq
    rw [← show source.name = name from eq_of_beq heq, h] at hfind
    cases hfind

/-- What is captured can be seen. -/
theorem seenIn_capture {s : Scope} {source : Symbol} (h : s.find? source.name = none) :
    (s.capture source).1.SeenIn (s.capture source).2 := by
  refine ⟨?_, source, Array.getElem?_push_size, rfl⟩
  exact ((grows_capture h).own ▸ lookup_own_of_find?_none h :)

/-- Capturing a name that the scope does not have leaves a scope that can be
relied on. The name is found now, among the captures. -/
theorem Valid.capture {s : Scope} {source : Symbol} (hs : s.Valid)
    (h : s.find? source.name = none) : (s.capture source).2.Valid := by
  have hgrows := grows_capture h
  constructor
  · intro name y hfind
    rw [show (s.capture source).2.find? name = (s.bind (s.capture source).1).find? name from rfl,
      find?_bind] at hfind
    split at hfind
    · cases hfind
      exact seenIn_capture h
    · exact (hs.seen name y hfind).mono hgrows
  · intro name n hmem
    rw [hgrows.own] at hmem
    exact hs.bounded name n hmem

end Scope

/-! ## Tables of names -/

/-- **Scopes that can be relied on**, from the inside out. What a function
captures is seen in the scope around it; a function of the top level captures
nothing. -/
inductive Chain : Scope → List Scope → Prop where
  | top {s : Scope} : s.IsTop → Chain s []
  | outermost {s top : Scope} : s.Valid → s.captures = #[] → top.IsTop → Chain s [top]
  | nested {s next further : Scope} {rest : List Scope} : s.Valid →
      (∀ source ∈ s.captures, source.SeenIn next) → Chain next (further :: rest) →
      Chain s (next :: further :: rest)

/-- The outermost of some scopes. -/
def topScope (s : Scope) : List Scope → Scope
  | [] => s
  | next :: rest => topScope next rest

/-- The names that a function finds in the functions around it, the nearest
first. -/
def namesAround : List Scope → List String
  | [] | [_] => []
  | s :: next :: rest => s.own.map (·.1) ++ namesAround (next :: rest)

namespace Chain

variable {s s' next : Scope} {outer outer' rest : List Scope}

/-- All scopes but the outermost are those of functions. -/
theorem valid (h : Chain s (next :: rest)) : s.Valid := by
  cases h with
  | outermost hs => exact hs
  | nested hs => exact hs

/-- The scopes around a function are themselves such a chain. -/
theorem tail (h : Chain s (next :: rest)) : Chain next rest := by
  cases h with
  | outermost _ _ htop => exact .top htop
  | nested _ _ hrest => exact hrest

/-- The outermost scope is the top level, however many functions are open. -/
theorem isTop (h : Chain s outer) : (topScope s outer).IsTop := by
  induction h with
  | top h => exact h
  | outermost _ _ h => exact h
  | nested _ _ _ ih => exact ih

/-- What a function captures is seen in the scope around it, which is then a
function's. -/
theorem captures_seen (h : Chain s (next :: rest)) :
    ∀ x ∈ s.captures.toList, rest ≠ [] ∧ x.SeenIn next := by
  intro x hx
  cases h with
  | outermost _ hcaptures => rw [hcaptures] at hx; cases hx
  | nested _ hcaptures => exact ⟨nofun, hcaptures x (Array.mem_toList_iff.1 hx)⟩

/-- Whatever the innermost scope of a function binds, what it captures decides
whether it fits. -/
theorem replace (h : Chain s (next :: rest)) (hs' : s'.Valid) (hc : s'.captures = s.captures) :
    Chain s' (next :: rest) := by
  cases h with
  | outermost _ hcaptures htop => exact .outermost hs' (hc.trans hcaptures) htop
  | nested _ hcaptures hrest => exact .nested hs' (hc ▸ hcaptures) hrest

/-- What is captured stays in sight when names are looked up further out. -/
theorem regrow (h : Chain s (next :: rest)) (hnext : next.Grows s') (hrest : Chain s' outer')
    (hlen : outer'.length = rest.length) : Chain s (s' :: outer') := by
  cases h with
  | outermost hs hcaptures _ =>
    rw [List.length_nil, List.length_eq_zero_iff] at hlen
    subst hlen
    exact .outermost hs hcaptures hrest.isTop
  | nested hs hcaptures _ =>
    obtain ⟨further, outer', rfl⟩ := List.exists_cons_of_length_eq_add_one hlen
    exact .nested hs (fun source hmem => (hcaptures source hmem).mono hnext) hrest

/-- A function may capture what the function around it has, unless it is found
already. At the top level there is nothing to capture, so there has to be a
function around. -/
theorem capture {x : Symbol} (h : Chain s (next :: rest)) (hfind : s.find? x.name = none)
    (hrest : rest ≠ []) (hseen : x.SeenIn next) : Chain (s.capture x).2 (next :: rest) := by
  cases h with
  | outermost => exact (hrest rfl).elim
  | nested hs hcaptures hchain =>
    refine .nested (hs.capture hfind) (fun source hmem => ?_) hchain
    rcases Array.mem_push.1 hmem with hmem | rfl
    · exact hcaptures source hmem
    · exact hseen

end Chain

/-- Names may be looked up in the scopes around one. -/
theorem topScope_own {s s' : Scope} {outer outer' : List Scope} (hs : s.Grows s')
    (h : List.Forall₂ Scope.Grows outer outer') :
    (topScope s' outer').own = (topScope s outer).own := by
  induction h generalizing s s' with
  | nil => exact hs.own
  | cons hnext _ ih => exact ih hnext

/-- Names can be looked up one after the other, in all scopes at once. -/
theorem grows_trans {outer outer₁ outer₂ : List Scope} (h₁ : List.Forall₂ Scope.Grows outer outer₁)
    (h₂ : List.Forall₂ Scope.Grows outer₁ outer₂) : List.Forall₂ Scope.Grows outer outer₂ := by
  induction h₁ generalizing outer₂ with
  | nil => exact h₂
  | cons hs _ ih =>
    cases h₂ with
    | cons hs' hrest => exact .cons (hs.trans hs') (ih hrest)

/-- Looking names up binds none, so the names of the functions around are the
same afterwards. -/
theorem namesAround_of_grows {outer outer' : List Scope}
    (h : List.Forall₂ Scope.Grows outer outer') : namesAround outer' = namesAround outer := by
  induction h with
  | nil => rfl
  | cons hs hrest ih =>
    cases hrest with
    | nil => rfl
    | cons => rw [namesAround, namesAround, hs.own, ih]

namespace SymbolTable

/-- **What is known after a name has been looked up**: the symbol is a global or
a builtin function, and none of the functions binds the name; or it has a place
in the innermost scope. -/
inductive Found (name : String) (x : Symbol) (s : Scope) (outer : List Scope) : Prop where
  | shared : x.storage.isShared = true → (topScope s outer).find? name = some x →
      (outer ≠ [] → s.own.lookup name = none) → name ∉ namesAround outer → Found name x s outer
  | seen : outer ≠ [] → x.name = name → x.SeenIn s → Found name x s outer

/-- What looking a name up comes to, by recursion outward: the scopes can be
relied on as before, nothing but captures has been added, and the symbol has its
place in the innermost scope or at the top level. -/
theorem resolveFrom_spec {name : String} {s s' : Scope} {outer outer' : List Scope} {x : Symbol}
    (hc : Chain s outer) (h : resolveFrom name s outer = some (x, s', outer')) :
    Chain s' outer' ∧ s.Grows s' ∧ List.Forall₂ Scope.Grows outer outer' ∧
      Found name x s' outer' := by
  induction outer generalizing s s' outer' x with
  | nil =>
    obtain ⟨x', hfind, heq⟩ := Option.map_eq_some_iff.1 h
    cases heq
    refine ⟨hc, .refl s, .nil, .shared ?_ hfind (fun h => (h rfl).elim) nofun⟩
    rcases hc.isTop.seen name x hfind with hglobal | ⟨hbuiltin, -⟩
    · rw [hglobal]; rfl
    · rw [hbuiltin]; rfl
  | cons next rest ih =>
    have hrefl : List.Forall₂ Scope.Grows (next :: rest) (next :: rest) :=
      List.forall₂_same.2 fun s _ => .refl s
    rw [resolveFrom] at h
    split at h
    · next x' hfind =>
      cases h
      exact ⟨hc, .refl s, hrefl, .seen nofun (Scope.name_of_find? hfind)
        (hc.valid.seen name x hfind)⟩
    · next hfind =>
      split at h
      · cases h
      · next x' next' rest' hrec =>
        obtain ⟨hchain, hnext, hrest, hfound⟩ := ih hc.tail hrec
        -- The name has been found further out. It comes back as it is if all
        -- functions share it, and is captured otherwise.
        have hown := Scope.lookup_own_of_find?_none hfind
        have hchain' := hc.regrow hnext hchain hrest.length_eq.symm
        split at h
        · next hshared =>
          cases h
          refine ⟨hchain', .refl s, .cons hnext hrest, ?_⟩
          cases hfound with
          | shared _ htop hnames haround =>
            refine .shared hshared htop (fun _ => hown) ?_
            cases rest' with
            | nil => exact nofun
            | cons further rest' =>
              -- The next scope is a function that does not bind the name
              -- either.
              rw [namesAround, List.mem_append, not_or]
              refine ⟨?_, haround⟩
              have := List.lookup_eq_none_iff.1 (hnames nofun)
              rintro hmem
              obtain ⟨entry, hentry, rfl⟩ := List.mem_map.1 hmem
              simpa using this entry hentry
          | seen _ _ hseen =>
            obtain ⟨name', storage, place⟩ := x
            cases storage <;> cases hshared <;> cases hseen
        · next hshared =>
          cases h
          cases hfound with
          | shared hshared' => exact (hshared hshared').elim
          | seen houter hname hseen =>
            subst hname
            refine ⟨?_, Scope.grows_capture hfind, .cons hnext hrest, ?_⟩
            · exact hchain'.capture hfind houter hseen
            · exact .seen nofun rfl (Scope.seenIn_capture hfind)

/-- **A table of names that can be relied on.** -/
def Coherent (t : SymbolTable) : Prop := Chain t.inner t.outer

/-- The same for tables. All that is used of looking names up is taken from
here. -/
theorem Coherent.resolve {t t' : SymbolTable} {name : String} {x : Symbol} (ht : t.Coherent)
    (h : t.resolve name = some (x, t')) :
    t'.Coherent ∧ t.inner.Grows t'.inner ∧ List.Forall₂ Scope.Grows t.outer t'.outer ∧
      Found name x t'.inner t'.outer := by
  obtain ⟨⟨x', inner, outer⟩, hrec, heq⟩ := Option.map_eq_some_iff.1 h
  cases heq
  exact resolveFrom_spec ht hrec

/-- A new variable is one more name of the innermost scope. -/
theorem names_define (t : SymbolTable) (name : String) :
    (t.define name).2.inner.names = t.inner.names.bind name := by
  have hown : (t.define name).2.inner.own = (name, .site t.inner.definitions) :: t.inner.own := by
    refine Scope.own_bind_of_some ?_
    show (⟨name, if t.isGlobal then .global else .frame, t.inner.definitions⟩ : Symbol).binder? = _
    cases t.isGlobal <;> rfl
  rw [Scope.names, hown]
  rfl

/-- A function knows itself by its name. This is a name of its own scope, but
not one of its variables. -/
theorem names_defineItself (t : SymbolTable) (name : String) :
    (t.defineItself name).2.inner.names =
      ⟨(name, .itself) :: t.inner.names.bound, t.inner.names.sites⟩ := by
  rw [Scope.names, show (t.defineItself name).2.inner.own = _ from Scope.own_bind_of_some rfl]
  rfl

/-- Parameters are variables, in the order in which they are written. -/
theorem names_defineAll (t : SymbolTable) (params : List Ident) :
    (t.defineAll params).inner.names = t.inner.names.bindAll params := by
  induction params generalizing t with
  | nil => rfl
  | cons x rest ih =>
    rw [defineAll, ih, names_define]
    rfl

/-- A function begins with the names that the evaluator gives it. -/
theorem names_enterFunction (t : SymbolTable) (name : Option String) (params : List Ident) :
    (t.enterFunction name params).inner.names = .ofFunction name params := by
  cases name with
  | none =>
    rw [enterFunction, names_defineAll]
    rfl
  | some name =>
    rw [enterFunction, names_defineAll, names_defineItself]
    rfl

/-- A global that is bound may hide a builtin function, which is then no longer
found. -/
theorem isTop_define {t : SymbolTable} (name : String) (h : t.inner.IsTop)
    (hg : t.isGlobal = true) :
    (t.define name).2.inner.IsTop := by
  refine ⟨h.captures, fun name' x hfind => ?_⟩
  have hx : (t.define name).1.storage = .global := by
    show (if t.isGlobal then Storage.global else .frame) = _
    rw [hg]
    rfl
  rw [show (t.define name).2.inner.find? name' =
      (t.inner.bind (t.define name).1).find? name' from rfl,
    Scope.find?_bind] at hfind
  split at hfind
  · cases hfind
    exact .inl hx
  · next hne =>
    have hne' : (name == name') = false := Bool.eq_false_iff.2 hne
    refine (h.seen name' x hfind).imp_right fun ⟨hstorage, hown, hb⟩ => ⟨hstorage, ?_, hb⟩
    have hnames : (t.define name).2.inner.own = (name, .site t.inner.definitions) :: t.inner.own :=
      congrArg Names.bound (names_define t name)
    rw [hnames, List.lookup_cons, BEq.comm, hne']
    exact hown

/-- A table stays coherent when a variable is bound, be it a global or a
variable of a function. -/
theorem Coherent.define {t : SymbolTable} (ht : t.Coherent) (name : String) :
    (t.define name).2.Coherent := by
  obtain ⟨inner, outer⟩ := t
  cases outer with
  | nil => exact .top (isTop_define name ht.isTop rfl)
  | cons next rest =>
    have hvalid := Scope.Valid.bind (x := ⟨name, .frame, inner.definitions⟩) ht.valid rfl nofun
      (inner.definitions + 1) (Nat.le_succ _) (fun n h => by cases h; exact Nat.lt_succ_self _)
    exact Chain.replace ht hvalid rfl

/-- It stays so when a function binds its own name. -/
theorem Coherent.defineItself {t : SymbolTable} (ht : t.Coherent) (hg : t.isGlobal = false)
    (name : String) : (t.defineItself name).2.Coherent := by
  obtain ⟨inner, outer⟩ := t
  cases outer with
  | nil => cases hg
  | cons next rest =>
    have hvalid := Scope.Valid.bind (x := ⟨name, .itself, 0⟩) ht.valid rfl nofun
      inner.definitions (Nat.le_refl _) nofun
    exact Chain.replace ht hvalid rfl

/-- It stays so when parameters are bound. -/
theorem Coherent.defineAll {t : SymbolTable} (ht : t.Coherent) (params : List Ident) :
    (t.defineAll params).Coherent := by
  induction params generalizing t with
  | nil => exact ht
  | cons x rest ih => exact ih (ht.define x.name)

/-- A function that is opened captures nothing at first. -/
theorem Coherent.enter {t : SymbolTable} (ht : t.Coherent) : t.enter.Coherent := by
  obtain ⟨inner, outer⟩ := t
  cases outer with
  | nil => exact .outermost Scope.valid_empty rfl ht.isTop
  | cons next rest => exact .nested Scope.valid_empty nofun ht

/-- So a table is coherent at the beginning of every function, before its body
is compiled. -/
theorem Coherent.enterFunction {t : SymbolTable} (ht : t.Coherent) (name : Option String)
    (params : List Ident) : (t.enterFunction name params).Coherent := by
  cases name with
  | none => exact ht.enter.defineAll params
  | some name => exact (ht.enter.defineItself rfl name).defineAll params

/-- Programs start from a table that can be relied on. -/
theorem coherent_initial : SymbolTable.initial.Coherent := by
  have hbuiltin : ∀ x ∈ SymbolTable.initial.inner.bindings, x.storage = .builtin ∧
      Builtin.ofIndex? x.index = Builtin.ofName? x.name ∧
      (Builtin.ofName? x.name).isSome = true := by decide
  refine .top ⟨rfl, fun name x hfind => .inr ?_⟩
  obtain ⟨hstorage, hplace, hsome⟩ := hbuiltin x (List.mem_of_find?_eq_some hfind)
  obtain ⟨b, hb⟩ := Option.isSome_iff_exists.1 hsome
  rw [Scope.name_of_find? hfind] at hb hplace
  exact ⟨hstorage, rfl, b, hplace.trans hb, hb⟩

end SymbolTable

/-! ## What compiling does to the names -/

namespace Names

/-- Parameters are counted as variables, since they are the first slots of a
frame. -/
theorem sites_bindAll (ns : Names) (params : List Ident) :
    (ns.bindAll params).sites = ns.sites + params.length := by
  induction params generalizing ns with
  | nil => rfl
  | cons x params ih =>
    rw [bindAll, ih, List.length_cons, Nat.add_comm params.length, ← Nat.add_assoc]
    rfl

/-- The parameters are the first variables. -/
theorem sites_ofFunction (name : Option String) (params : List Ident) :
    (ofFunction name params).sites = params.length := by
  cases name with
  | none => exact (sites_bindAll _ _).trans (Nat.zero_add _)
  | some name => exact (sites_bindAll _ _).trans (Nat.zero_add _)

/-- A branch binds what its statements bind, in the function that it stands in:
it opens no scope. -/
theorem skipBranch_eq (ns : Names) (block : Block) :
    ns.skipBranch block = ns.skipBlock block.body := by
  cases block
  rw [skipBranch]
  rfl

/-- The other branch does too. Where it is missing there is nothing to bind. -/
theorem skipOther_eq (ns : Names) (no : Option Block) :
    ns.skipOther no = ns.skipBlock (otherwise no) := by
  cases no with
  | none => rw [skipOther, otherwise, skipBlock]
  | some block => rw [skipOther, otherwise, skipBranch_eq]

/-- The sides of an operator bind in the order in which they are compiled. For
all operators but one this is the order in which they are written. -/
theorem skip_binary {op : BinaryOp} (ns : Names) (left right : Expr) (span : Span)
    (h : op ≠ .less) :
    ns.skip (.binary op left right span) = (ns.skip left).skip right := by
  rw [skip]
  exact h

end Names

/-- The names after a phrase. -/
def Phrase.skip (ns : Names) : Phrase → Names
  | .expr e => ns.skip e
  | .exprs es => ns.skipAll es
  | .pairs entries => ns.skipPairs entries
  | .branch block | .body block | .stmts block => ns.skipBlock block
  | .stmt s => ns.skipStmt s

/-- **What becomes of names and constants**: the innermost scope has the given
names afterwards, and everything that was there keeps its place. -/
structure Setting.Extends (c : Setting) (ns : Names) (c' : Setting) : Prop where
  /-- The table can be relied on. -/
  coherent : c'.symbols.Coherent
  /-- The names of the innermost scope. -/
  names : c'.symbols.inner.names = ns
  /-- There are no fewer variables. -/
  definitions : c.symbols.inner.definitions ≤ c'.symbols.inner.definitions
  /-- The captures of the innermost scope keep their places. -/
  captures : c.symbols.inner.captures.toList <+: c'.symbols.inner.captures.toList
  /-- What was found is found as before, unless a new variable hides it. -/
  found : ∀ name x, c.symbols.inner.find? name = some x → c'.symbols.inner.find? name = some x ∨
    ∃ y n, c'.symbols.inner.find? name = some y ∧ y.binder? = some (.site n)
  /-- In the scopes around it names have been looked up. -/
  outer : List.Forall₂ Scope.Grows c.symbols.outer c'.symbols.outer
  /-- The constants keep their places. -/
  constants : c.constants.toList <+: c'.constants.toList

namespace Setting.Extends

variable {c c₁ c₂ : Setting} {ns ns' : Names}

/-- Nothing has been compiled yet. -/
theorem refl (h : c.symbols.Coherent) : c.Extends c.symbols.inner.names c :=
  ⟨h, rfl, Nat.le_refl _, List.prefix_refl _, fun _ _ h => .inl h,
    List.forall₂_same.2 fun s _ => .refl s, List.prefix_refl _⟩

/-- One phrase has been compiled after another. What the first one has found may
be hidden by a variable that the second one binds. -/
theorem trans (h₁ : c.Extends ns c₁) (h₂ : c₁.Extends ns' c₂) : c.Extends ns' c₂ := by
  refine ⟨h₂.coherent, h₂.names, Nat.le_trans h₁.definitions h₂.definitions,
    h₁.captures.trans h₂.captures, fun name x hfind => ?_, grows_trans h₁.outer h₂.outer,
    h₁.constants.trans h₂.constants⟩
  rcases h₁.found name x hfind with hfind₁ | ⟨y, n, hfind₁, hy⟩
  · exact h₂.found name x hfind₁
  · refine .inr ?_
    rcases h₂.found name y hfind₁ with hfind₂ | hnew
    · exact ⟨y, n, hfind₂, hy⟩
    · exact hnew

/-- Phrases are compiled within one function, so the compiler is at the top
level afterwards if it was before. -/
theorem isGlobal (h : c.Extends ns c') :
    c'.symbols.isGlobal = c.symbols.isGlobal := by
  have hlen := h.outer.length_eq
  unfold SymbolTable.isGlobal
  cases hc : c.symbols.outer with
  | nil =>
    rw [hc] at hlen
    rw [List.length_eq_zero_iff.1 hlen.symm]
  | cons x xs =>
    cases hc' : c'.symbols.outer with
    | nil => rw [hc, hc'] at hlen; cases hlen
    | cons => rfl

/-- One phrase is compiled after another. -/
theorem next {p : Phrase} (h₁ : c.Extends ns c₁)
    (h₂ : c₁.symbols.Coherent → c₁.Extends (p.skip c₁.symbols.inner.names) c₂) :
    c.Extends (p.skip ns) c₂ :=
  h₁.trans (h₁.names ▸ h₂ h₁.coherent)

/-- The names alone have grown. -/
theorem of_grows {t : SymbolTable} (ht : t.Coherent) (hinner : c.symbols.inner.Grows t.inner)
    (houter : List.Forall₂ Scope.Grows c.symbols.outer t.outer) :
    c.Extends c.symbols.inner.names { c with symbols := t } where
  coherent := ht
  names := by rw [Scope.names, Scope.names, hinner.own, hinner.definitions]
  definitions := Nat.le_of_eq hinner.definitions.symm
  captures := hinner.captures
  found name x h := .inl (hinner.found name x h)
  outer := houter
  constants := List.prefix_refl _

/-- A literal leaves the names alone. -/
theorem of_intern {v : Value} {index : UInt16} (h : c.symbols.Coherent)
    (hintern : c.intern v = some (index, c₁)) : c.Extends c.symbols.inner.names c₁ := by
  unfold intern at hintern
  split at hintern <;> split at hintern <;> cases hintern
  · exact refl h
  · have hrefl := refl h
    exact ⟨h, rfl, Nat.le_refl _, List.prefix_refl _, hrefl.found, hrefl.outer, by
      rw [Array.toList_push]; exact List.prefix_append _ _⟩

/-- A binding adds a variable, which hides what had its name before. -/
theorem define (h : c.symbols.Coherent) (name : String) :
    c.Extends (c.symbols.inner.names.bind name)
      { c with symbols := (c.symbols.define name).2 } where
  coherent := h.define name
  names := SymbolTable.names_define _ _
  definitions := Nat.le_succ _
  captures := List.prefix_refl _
  found name' x hfind := by
    have hbinder : (c.symbols.define name).1.binder? =
        some (.site c.symbols.inner.definitions) := by
      show (⟨name, if c.symbols.isGlobal then .global else .frame, _⟩ : Symbol).binder? = _
      cases c.symbols.isGlobal <;> rfl
    rw [show (c.symbols.define name).2.inner.find? name' =
      (c.symbols.inner.bind (c.symbols.define name).1).find? name' from rfl, Scope.find?_bind]
    split
    · exact .inr ⟨_, _, rfl, hbinder⟩
    · exact .inl hfind
  outer := (refl h).outer
  constants := List.prefix_refl _

/-- A function literal changes nothing of the names around it but what is
captured. -/
theorem function {name : Option String} {params : List Ident} {t : SymbolTable} {body : Routine}
    (h : (⟨c.symbols.enterFunction name params, c.constants⟩ : Setting).Extends ns c₁)
    (hleave : c₁.symbols.leave? = some t) :
    c.Extends c.symbols.inner.names ⟨t, c₁.constants.push (.routine body)⟩ := by
  have houter := SymbolTable.outer_of_leave? hleave
  have hgrows := h.outer
  rw [houter, SymbolTable.outer_enterFunction] at hgrows
  have hchain := h.coherent
  rw [SymbolTable.Coherent, houter] at hchain
  cases hgrows with
  | cons hinner hrest =>
    have hnames := of_grows (c := c) hchain.tail hinner hrest
    exact ⟨hnames.coherent, hnames.names, hnames.definitions, hnames.captures, hnames.found,
      hnames.outer, by rw [Array.toList_push]; exact h.constants.trans (List.prefix_append _ _)⟩

end Setting.Extends

/-- **A phrase that is compiled** leaves the names that the evaluator leaves
when it passes over it. -/
theorem Writes.extends {c c' : Setting} {start : Nat} {p : Phrase} {is : List Instruction}
    (h : Writes c start p is c') (hc : c.symbols.Coherent) :
    c.Extends (p.skip c.symbols.inner.names) c' := by
  induction h with
  | ident hresolve _ =>
    obtain ⟨hcoherent, hinner, houter, -⟩ := hc.resolve hresolve
    rw [Phrase.skip, Names.skip]
    exact .of_grows hcoherent hinner houter
  | number _ hintern | string hintern =>
    rw [Phrase.skip, Names.skip]
    exact .of_intern hc hintern
  | boolean => rw [Phrase.skip, Names.skip]; exact .refl hc
  | exprsNil => rw [Phrase.skip, Names.skipAll]; exact .refl hc
  | pairsNil => rw [Phrase.skip, Names.skipPairs]; exact .refl hc
  | branchNil | bodyNil | stmtsNil => rw [Phrase.skip, Names.skipBlock]; exact .refl hc
  | unary _ ih | array _ _ ih | map _ _ ih =>
    rw [Phrase.skip, Names.skip]
    exact ih hc
  | branchExpr _ ih | bodyExpr _ ih | bodyRet _ _ ih =>
    rw [Phrase.skip, Names.skipBlock, Names.skipBlock, Names.skipStmt]
    exact ih hc
  | stmtExpr _ ih | stmtRet _ _ ih =>
    rw [Phrase.skip, Names.skipStmt]
    exact ih hc
  | stmtBind _ _ ih =>
    have h₁ := ih hc
    rw [Phrase.skip, Names.skipStmt, ← show _ = Names.skip _ _ from h₁.names]
    exact h₁.trans (.define h₁.coherent _)
  | less _ _ ih₁ ih₂ | call _ _ _ ih₁ ih₂ | index _ _ ih₁ ih₂ =>
    rw [Phrase.skip, Names.skip]
    exact (ih₁ hc).next ih₂
  | binary hop _ _ ih₁ ih₂ =>
    rw [Phrase.skip, Names.skip_binary _ _ _ _ hop]
    exact (ih₁ hc).next ih₂
  | exprsCons _ _ ih₁ ih₂ =>
    rw [Phrase.skip, Names.skipAll]
    exact (ih₁ hc).next ih₂
  | branchCons _ _ _ ih₁ ih₂ | bodyCons _ _ _ ih₁ ih₂ | stmtsCons _ _ ih₁ ih₂ =>
    rw [Phrase.skip, Names.skipBlock]
    exact (ih₁ hc).next ih₂
  | pairsCons _ _ _ ih₁ ih₂ ih₃ =>
    rw [Phrase.skip, Names.skipPairs]
    exact ((ih₁ hc).next ih₂).next ih₃
  | cond _ _ _ _ _ _ _ ih₁ ih₂ ih₃ =>
    -- The names of both branches are left, though only one of them is run.
    rw [Phrase.skip, Names.skip, Names.skipBranch_eq, Names.skipOther_eq]
    exact ((ih₁ hc).next ih₂).next ih₃
  | function _ _ hleave _ _ _ ih =>
    rw [Phrase.skip, Names.skip]
    exact (ih (hc.enterFunction _ _)).function hleave

end StackScript
