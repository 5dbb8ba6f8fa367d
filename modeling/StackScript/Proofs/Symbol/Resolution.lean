import StackScript.Proofs.Symbol.Coherence

/-!
# Looking names up

A table of names is a chain of scopes. Looking a name up goes outward to the
nearest scope that binds it and, if what it finds there belongs to a function,
comes back with captures: each scope on the way captures what the next one has
for the name. `SymbolTable.resolve` does both in one recursion. Here the two are
taken apart: `nearest?` goes outward and changes nothing, `captureThrough` comes
back, and `SymbolTable.resolve_eq` says that a look-up is the one after the
other.

What was captured can be followed outward again, one capture for each scope
(`follow`, `origin?`). That this works after any history of a table, whatever
was bound, looked up, entered and left, rests on what all such tables have in
common (`Wired`): a symbol of a scope has a place there, a capture is of
something that has a place in the next scope, and no name is captured twice.
-/

namespace StackScript

/-! ## Going outward -/

/-- The scopes of a table, the innermost first. -/
def SymbolTable.scopes (t : SymbolTable) : List Scope := t.inner :: t.outer

/-- **The nearest binding of a name**: how many scopes out it is, and the
symbol. -/
def nearest? (name : String) : List Scope → Option (Nat × Symbol)
  | [] => none
  | s :: rest =>
    match s.find? name with
    | some x => some (0, x)
    | none => (nearest? name rest).map (Prod.map Nat.succ id)

/-- **What a symbol of the first scope stands for so many scopes further out**,
if it is captured from scope to scope. -/
def follow : Nat → List Scope → Symbol → Option Symbol
  | 0, _, x => some x
  | _ + 1, [], _ => none
  | d + 1, s :: rest, x =>
    if x.storage = .captured then s.captures[x.index]?.bind (follow d rest) else none

/-- **The binding that a symbol of the first scope leads to**, captures being
followed to their end: how many scopes out it is, and the symbol. -/
def origin? : List Scope → Symbol → Option (Nat × Symbol)
  | [], _ => none
  | s :: rest, x =>
    if x.storage = .captured then
      (s.captures[x.index]?.bind (origin? rest)).map (Prod.map Nat.succ id)
    else some (0, x)

/-- **The binding that a name leads to.** -/
def leadsTo? (name : String) : List Scope → Option (Nat × Symbol)
  | [] => none
  | s :: rest =>
    match s.find? name with
    | some x => origin? (s :: rest) x
    | none => (leadsTo? name rest).map (Prod.map Nat.succ id)

section

variable {name : String} {s : Scope} {scopes rest : List Scope} {x : Symbol} {d : Nat}

/-- A scope that binds the name is the nearest one. -/
theorem nearest?_of_some (h : s.find? name = some x) : nearest? name (s :: rest) = some (0, x) := by
  rw [nearest?, h]

/-- A scope that does not bind the name is passed, and counted. -/
theorem nearest?_of_none (h : s.find? name = none) :
    nearest? name (s :: rest) = (nearest? name rest).map (Prod.map Nat.succ id) := by
  rw [nearest?, h]

/-- Where a scope binds the name, it leads to what the symbol there leads to: a
captured symbol leads further out. -/
theorem leadsTo?_of_some (h : s.find? name = some x) :
    leadsTo? name (s :: rest) = origin? (s :: rest) x := by
  rw [leadsTo?, h]

/-- Where it does not, the name leads to where it leads from the next scope
on. -/
theorem leadsTo?_of_none (h : s.find? name = none) :
    leadsTo? name (s :: rest) = (leadsTo? name rest).map (Prod.map Nat.succ id) := by
  rw [leadsTo?, h]

/-- Nothing is nearest exactly if nothing is there. -/
theorem nearest?_eq_none_iff : nearest? name scopes = none ↔ ∀ s ∈ scopes, s.find? name = none := by
  induction scopes with
  | nil => simp [nearest?]
  | cons s rest ih =>
    cases hfind : s.find? name with
    | some x => simp [nearest?_of_some hfind, hfind]
    | none => simp [nearest?_of_none hfind, hfind, ih]

/-- What is nearest at no distance is bound in the first scope. -/
theorem nearest?_zero (h : nearest? name (s :: rest) = some (0, x)) : s.find? name = some x := by
  cases hfind : s.find? name with
  | some y =>
    rw [nearest?_of_some hfind] at h
    cases h
    rfl
  | none => simp [nearest?_of_none hfind, Prod.map] at h

/-- What is nearest at a distance is not bound in the first scope. -/
theorem nearest?_succ (h : nearest? name (s :: rest) = some (d + 1, x)) :
    s.find? name = none ∧ nearest? name rest = some (d, x) := by
  cases hfind : s.find? name with
  | some y => simp [nearest?_of_some hfind] at h
  | none =>
    rw [nearest?_of_none hfind] at h
    obtain ⟨⟨d', y⟩, hrest, heq⟩ := Option.map_eq_some_iff.1 h
    cases heq
    exact ⟨rfl, hrest⟩

/-- What is found under a name has this name. -/
theorem name_of_nearest? (h : nearest? name scopes = some (d, x)) : x.name = name := by
  induction scopes generalizing d with
  | nil => cases h
  | cons s rest ih =>
    cases d with
    | zero => exact Scope.name_of_find? (nearest?_zero h)
    | succ d => exact ih (nearest?_succ h).2

/-- The scope in which it is found is one of the chain. -/
theorem length_of_nearest? (h : nearest? name scopes = some (d, x)) : d < scopes.length := by
  induction scopes generalizing d with
  | nil => cases h
  | cons s rest ih =>
    cases d with
    | zero => exact Nat.succ_pos _
    | succ d => exact Nat.succ_lt_succ (ih (nearest?_succ h).2)

end

/-! ## Coming back -/

/-- **Captures a symbol in all scopes that are nearer than its own**: the symbol
that the first scope has for it, and the scopes afterwards. -/
def captureThrough (x : Symbol) : Nat → List Scope → Symbol × List Scope
  | 0, scopes => (x, scopes)
  | _ + 1, [] => (x, [])
  | d + 1, s :: rest =>
    let inner := s.capture (captureThrough x d rest).1
    (inner.1, inner.2 :: (captureThrough x d rest).2)

namespace SymbolTable

/-- **A look-up goes outward to the nearest binding, and comes back with
captures** unless what it found is the same for all functions. -/
theorem resolveFrom_eq (name : String) (s : Scope) (outer : List Scope) :
    (resolveFrom name s outer).map (fun r => (r.1, r.2.1 :: r.2.2)) =
      (nearest? name (s :: outer)).map fun found =>
        if found.2.storage.isShared then (found.2, s :: outer)
        else captureThrough found.2 found.1 (s :: outer) := by
  induction outer generalizing s with
  | nil =>
    rw [resolveFrom]
    cases hfind : s.find? name with
    | none => simp [nearest?, hfind]
    | some x => simp [nearest?_of_some hfind, captureThrough]
  | cons next rest ih =>
    rw [resolveFrom]
    cases hfind : s.find? name with
    | some x => simp [nearest?_of_some hfind, captureThrough]
    | none =>
      have hnext := ih next
      rw [nearest?_of_none hfind]
      cases hnear : nearest? name (next :: rest) with
      | none =>
        have hrec : resolveFrom name next rest = none := by simpa [hnear] using hnext
        rw [hrec]
        rfl
      | some found =>
        obtain ⟨d, x⟩ := found
        rw [hnear] at hnext
        obtain ⟨⟨y, next', rest'⟩, hrec, hy⟩ := Option.map_eq_some_iff.1 hnext
        rw [hrec]
        cases hshared : x.storage.isShared with
        | true =>
          simp only [hshared, if_true] at hy
          cases hy
          simp [hshared, Prod.map]
        | false =>
          have hy' : captureThrough x d (next :: rest) = (y, next' :: rest') := by
            simpa [hshared] using hy.symm
          -- What comes back from further out is no more shared than what was found there.
          have hcaptured : y.storage.isShared = false := by
            cases d with
            | zero => cases hy'; exact hshared
            | succ d => cases hy'; rfl
          simp [hshared, hcaptured, captureThrough, hy', Prod.map]

/-- **What a look-up comes to.** -/
theorem resolve_eq (t : SymbolTable) (name : String) :
    (t.resolve name).map (Prod.map id scopes) =
      (nearest? name t.scopes).map fun found =>
        if found.2.storage.isShared then (found.2, t.scopes)
        else captureThrough found.2 found.1 t.scopes := by
  rw [scopes, ← resolveFrom_eq, resolve, Option.map_map]
  rfl

/-- A table is its chain of scopes, which has an innermost one. -/
theorem eq_of_scopes {t t' : SymbolTable} (h : t.scopes = t'.scopes) : t = t' := by
  cases t
  cases t'
  cases h
  rfl

variable {name : String} {t : SymbolTable} {x : Symbol} {d : Nat}

/-- **A look-up fails only if no scope binds the name.** There is nothing to
capture then, and no other reason to fail. -/
theorem resolve_eq_none_iff : t.resolve name = none ↔ ∀ s ∈ t.scopes, s.find? name = none := by
  rw [← nearest?_eq_none_iff, ← Option.map_eq_none_iff, t.resolve_eq, Option.map_eq_none_iff]

/-- What is the same for all functions is found as it is, and so is what the
innermost scope binds. -/
theorem resolve_of_nearest (h : nearest? name t.scopes = some (d, x))
    (hhere : x.storage.isShared = true ∨ d = 0) : t.resolve name = some (x, t) := by
  have heq := t.resolve_eq name
  rw [h] at heq
  obtain ⟨⟨y, t'⟩, hresolve, hy⟩ := Option.map_eq_some_iff.1 heq
  have hunchanged : (y, t'.scopes) = (x, t.scopes) := by
    rcases hhere with hshared | rfl
    · simpa [hshared] using hy
    · simpa [captureThrough] using hy
  rw [hresolve, (Prod.mk.inj hunchanged).1, eq_of_scopes (Prod.mk.inj hunchanged).2]

/-- What belongs to a function is captured all the way. -/
theorem resolve_of_capture (h : nearest? name t.scopes = some (d, x))
    (hshared : x.storage.isShared = false) :
    ∃ y t', t.resolve name = some (y, t') ∧ captureThrough x d t.scopes = (y, t'.scopes) := by
  have heq := t.resolve_eq name
  rw [h] at heq
  obtain ⟨⟨y, t'⟩, hresolve, hy⟩ := Option.map_eq_some_iff.1 heq
  exact ⟨y, t', hresolve, by simpa [hshared] using hy.symm⟩

end SymbolTable

/-! ## What captures change -/

section

variable (s : Scope) (rest : List Scope) (source : Symbol)

/-- A capture is found under the name of what it captures, in front of whatever
else has that name. -/
theorem Scope.find?_capture (name : String) :
    (s.capture source).2.find? name =
      if source.name == name then some (s.capture source).1 else s.find? name :=
  s.find?_bind (s.capture source).1 name

theorem Scope.storage_capture : (s.capture source).1.storage = .captured := rfl

/-- Its index leads back to what was captured. -/
theorem Scope.getElem?_capture :
    (s.capture source).2.captures[(s.capture source).1.index]? = some source :=
  Array.getElem?_push_size

/-- What was captured last is followed to its source. -/
theorem follow_capture (d : Nat) :
    follow (d + 1) ((s.capture source).2 :: rest) (s.capture source).1 = follow d rest source := by
  rw [follow, if_pos (s.storage_capture source), s.getElem?_capture, Option.bind_some]

/-- What a new capture leads to is what its source leads to, from the next scope
on. -/
theorem origin?_capture :
    origin? ((s.capture source).2 :: rest) (s.capture source).1 =
      (origin? rest source).map (Prod.map Nat.succ id) := by
  rw [origin?, if_pos (s.storage_capture source), s.getElem?_capture, Option.bind_some]

end

section

variable {name : String} {scopes : List Scope} {x : Symbol} {d i : Nat}

/-- A symbol keeps its name on the way in. -/
theorem name_captureThrough (x : Symbol) (d : Nat) (scopes : List Scope) :
    (captureThrough x d scopes).1.name = x.name := by
  induction d generalizing scopes with
  | zero => rfl
  | succ d ih =>
    cases scopes with
    | nil => rfl
    | cons s rest => exact ih rest

/-- **From the scope of the binding on outward nothing changes.** -/
theorem getElem?_captureThrough_of_le (h : d ≤ i) :
    (captureThrough x d scopes).2[i]? = scopes[i]? := by
  induction d generalizing scopes i with
  | zero => rfl
  | succ d ih =>
    cases scopes with
    | nil => rfl
    | cons s rest =>
      cases i with
      | zero => cases h
      | succ i => exact ih (Nat.le_of_succ_le_succ h)

/-- **Each nearer scope makes one capture.** -/
theorem getElem?_captureThrough_of_lt {s : Scope} (h : i < d) (hs : scopes[i]? = some s) :
    ∃ source, source.name = x.name ∧
      (captureThrough x d scopes).2[i]? = some (s.capture source).2 := by
  induction d generalizing scopes i with
  | zero => cases h
  | succ d ih =>
    cases scopes with
    | nil => cases hs
    | cons next rest =>
      cases i with
      | zero =>
        cases hs
        exact ⟨_, name_captureThrough x d rest, rfl⟩
      | succ i => exact ih (Nat.lt_of_succ_lt_succ h) hs

/-- A name that was captured is bound in the first scope. -/
theorem nearest?_captureThrough {s : Scope} {rest : List Scope} (hx : x.name = name) :
    nearest? name (captureThrough x (d + 1) (s :: rest)).2 =
      some (0, (captureThrough x (d + 1) (s :: rest)).1) := by
  refine nearest?_of_some ?_
  rw [Scope.find?_capture, name_captureThrough, hx, if_pos (BEq.refl name)]
  rfl

/-- **What has been captured can be followed to where it came from.** -/
theorem follow_captureThrough (h : d ≤ scopes.length) :
    follow d (captureThrough x d scopes).2 (captureThrough x d scopes).1 = some x := by
  induction d generalizing scopes with
  | zero => rfl
  | succ d ih =>
    cases scopes with
    | nil => cases h
    | cons s rest => exact (follow_capture s _ _ d).trans (ih (Nat.le_of_succ_le_succ h))

end

/-! ## Tables of any history -/

/-- **A symbol has a place in a scope**: it is a variable that was counted, or
something that was captured under its name. -/
def Symbol.HasPlace (x : Symbol) (s : Scope) : Prop :=
  match x.storage with
  | .global | .frame => x.index < s.definitions
  | .captured => s.captures[x.index]?.map Symbol.name = some x.name
  | .builtin | .itself => True

/-- A scope by itself: all its symbols have a place, and what it captured once
it does not capture again. -/
structure Scope.Kept (s : Scope) : Prop where
  /-- What is bound has a place. -/
  places : ∀ x ∈ s.bindings, x.HasPlace s
  /-- A name that was captured is bound. -/
  bound : ∀ source ∈ s.captures, s.find? source.name ≠ none
  /-- No name is captured twice. -/
  once : (s.captures.toList.map Symbol.name).Nodup

/-- **Scopes whose captures are wired**: each is of something that has a place
in the next scope, and that is not the same for all functions. The outermost
scope captures nothing. -/
inductive Wired : List Scope → Prop where
  | top {s : Scope} : s.Kept → s.captures = #[] → Wired [s]
  | inner {s next : Scope} {rest : List Scope} : s.Kept →
      (∀ source ∈ s.captures, source.storage.isShared = false ∧ source.HasPlace next) →
      Wired (next :: rest) → Wired (s :: next :: rest)

/-- A scope after more was bound and captured in it. -/
structure Scope.Widens (s s' : Scope) : Prop where
  /-- There are no fewer variables. -/
  definitions : s.definitions ≤ s'.definitions
  /-- Captures keep their places. -/
  captures : s.captures.toList <+: s'.captures.toList

theorem Scope.Widens.refl (s : Scope) : s.Widens s := ⟨Nat.le_refl _, List.prefix_refl _⟩

theorem Scope.Widens.trans {s s₁ s₂ : Scope} (h₁ : s.Widens s₁) (h₂ : s₁.Widens s₂) :
    s.Widens s₂ :=
  ⟨Nat.le_trans h₁.definitions h₂.definitions, h₁.captures.trans h₂.captures⟩

/-- A capture is added after those that are there. -/
theorem Scope.widens_capture (s : Scope) (source : Symbol) : s.Widens (s.capture source).2 :=
  ⟨Nat.le_refl _, captures_capture s source⟩

/-- A symbol keeps its place when more is bound and captured: variables stay
counted, and captures keep their index. -/
theorem Symbol.HasPlace.mono {x : Symbol} {s s' : Scope} (h : x.HasPlace s) (hs : s.Widens s') :
    x.HasPlace s' := by
  obtain ⟨name, storage, index⟩ := x
  cases storage with
  | global | frame => exact Nat.lt_of_lt_of_le h hs.definitions
  | captured =>
    obtain ⟨source, hsource, hname⟩ := Option.map_eq_some_iff.1 h
    exact Option.map_eq_some_iff.2 ⟨source, getElem?_of_isPrefixOf hs.captures hsource, hname⟩
  | builtin | itself => trivial

namespace Scope

variable {s : Scope} {x : Symbol}

theorem kept_empty : empty.Kept := ⟨nofun, nofun, List.nodup_nil⟩

/-- A symbol that has a place may be bound. -/
theorem Kept.bind (hs : s.Kept) {definitions : Nat} (hmore : s.definitions ≤ definitions)
    (hx : x.HasPlace { s.bind x with definitions }) : Kept { s.bind x with definitions } where
  places := by
    refine List.forall_mem_cons.2 ⟨hx, fun y hy => ?_⟩
    exact (hs.places y hy).mono ⟨hmore, List.prefix_refl _⟩
  bound := by
    intro source hsource
    rw [show find? { s.bind x with definitions } source.name =
        (s.bind x).find? source.name from rfl,
      find?_bind]
    split
    · exact Option.some_ne_none _
    · exact hs.bound source hsource
  once := hs.once

/-- A name that is not bound may be captured. -/
theorem Kept.capture (hs : s.Kept) (h : s.find? x.name = none) : (s.capture x).2.Kept where
  places := by
    have hnew : (s.capture x).1.HasPlace (s.capture x).2 := by
      show (s.captures.push x)[s.captures.size]?.map Symbol.name = some x.name
      rw [Array.getElem?_push_size]
      rfl
    refine List.forall_mem_cons.2 ⟨hnew, fun y hy => ?_⟩
    exact (hs.places y hy).mono (s.widens_capture x)
  bound := by
    intro source hsource
    rw [find?_capture]
    split
    · exact Option.some_ne_none _
    · next hne =>
      rcases Array.mem_push.1 hsource with hold | rfl
      · exact hs.bound source hold
      · exact (hne (BEq.refl _)).elim
  once := by
    show ((s.captures.push x).toList.map Symbol.name).Nodup
    rw [Array.toList_push, List.map_append, List.nodup_append]
    refine ⟨hs.once, List.pairwise_singleton .., ?_⟩
    intro name hname other hother heq
    obtain ⟨source, hsource, rfl⟩ := List.mem_map.1 hname
    rw [List.map_singleton, List.mem_singleton] at hother
    -- What had been captured under this name would have been found.
    exact hs.bound source (Array.mem_toList_iff.1 hsource) (heq.trans hother ▸ h)

/-- **A name is captured in one place only**, so the place of a capture can be
told from its name. -/
theorem Kept.eq_of_name_eq (hs : s.Kept) {i j : Nat} {y : Symbol} (hx : s.captures[i]? = some x)
    (hy : s.captures[j]? = some y) (hname : x.name = y.name) : i = j := by
  rw [← Array.getElem?_toList] at hx hy
  have hi : i < (s.captures.toList.map Symbol.name).length := by
    rw [List.length_map]
    exact (List.getElem?_eq_some_iff.1 hx).1
  refine (List.getElem?_inj hi hs.once).1 ?_
  rw [List.getElem?_map, List.getElem?_map, hx, hy, Option.map_some, Option.map_some, hname]

end Scope

namespace Wired

variable {s s' : Scope} {rest : List Scope} {name : String} {x y : Symbol} {d : Nat}

/-- The first scope of a chain that is wired is well kept by itself. -/
theorem kept (h : Wired (s :: rest)) : s.Kept := by
  cases h with
  | top hs => exact hs
  | inner hs => exact hs

/-- The rest of a chain that is wired is wired. A function that is left gives
back such a chain. -/
theorem tail {next : Scope} (h : Wired (s :: next :: rest)) : Wired (next :: rest) := by
  cases h with
  | inner _ _ hrest => exact hrest

/-- More may be bound in the innermost scope. -/
theorem replace (h : Wired (s :: rest)) (hs' : s'.Kept) (hc : s'.captures = s.captures) :
    Wired (s' :: rest) := by
  cases h with
  | top _ hcaptures => exact .top hs' (hc.trans hcaptures)
  | inner _ hcaptures hrest => exact .inner hs' (hc ▸ hcaptures) hrest

/-- What a scope finds has a place there. -/
theorem hasPlace (h : Wired (s :: rest)) (hfind : s.find? name = some x) : x.HasPlace s :=
  h.kept.places x (List.mem_of_find?_eq_some hfind)

/-- **Captures on the way back are wired again**, and what comes back has a
place in the first scope.
-/
theorem captureThrough (h : Wired (s :: rest)) (hnear : nearest? name (s :: rest) = some (d, x))
    (hshared : x.storage.isShared = false) :
    ∃ y s' rest', StackScript.captureThrough x d (s :: rest) = (y, s' :: rest') ∧
      Wired (s' :: rest') ∧ s.Widens s' ∧ y.storage.isShared = false ∧ y.HasPlace s' := by
  induction d generalizing s rest with
  | zero =>
    exact ⟨x, s, rest, rfl, h, .refl s, hshared, h.hasPlace (nearest?_zero hnear)⟩
  | succ d ih =>
    obtain ⟨hfind, hnear'⟩ := nearest?_succ hnear
    cases h with
    | top => cases hnear'
    | @inner _ next rest hs hcaptures hrest =>
      obtain ⟨y, next', rest', heq, hwired, hwidens, hy, hplace⟩ := ih hrest hnear'
      have hname : y.name = name := by
        have := name_captureThrough x d (next :: rest)
        rw [heq] at this
        exact this.trans (name_of_nearest? hnear)
      have hkept := hs.capture (x := y) (hname ▸ hfind)
      refine ⟨(s.capture y).1, (s.capture y).2, next' :: rest', ?_, ?_, s.widens_capture y, rfl,
        hkept.places _ List.mem_cons_self⟩
      · rw [StackScript.captureThrough, heq]
      · refine .inner hkept (fun source hsource => ?_) hwired
        rcases Array.mem_push.1 hsource with hold | rfl
        · obtain ⟨hsource', hplace'⟩ := hcaptures source hold
          exact ⟨hsource', hplace'.mono hwidens⟩
        · exact ⟨hy, hplace⟩

end Wired

namespace SymbolTable

/-- **The tables that come about**, from one without names, by whatever is done
with them. -/
inductive Reachable : SymbolTable → Prop where
  | empty : Reachable .empty
  | define {t : SymbolTable} (name : String) : Reachable t → Reachable (t.define name).2
  | defineBuiltin {t : SymbolTable} (index : Nat) (name : String) : Reachable t →
      Reachable (t.defineBuiltin index name).2
  | defineItself {t : SymbolTable} (name : String) : Reachable t → Reachable (t.defineItself name).2
  | resolve {t t' : SymbolTable} {name : String} {x : Symbol} : Reachable t →
      t.resolve name = some (x, t') → Reachable t'
  | enter {t : SymbolTable} : Reachable t → Reachable t.enter
  | leave {t t' : SymbolTable} : Reachable t → t.leave? = some t' → Reachable t'

variable {t t' : SymbolTable} {name : String} {x : Symbol}

/-- **A look-up leaves the captures wired.** It captures, in each scope it
passes, what the next one has just been given. -/
theorem wired_resolve (h : Wired t.scopes) (hresolve : t.resolve name = some (x, t')) :
    Wired t'.scopes := by
  cases hnear : nearest? name t.scopes with
  | none =>
    rw [resolve_eq_none_iff.2 (nearest?_eq_none_iff.1 hnear)] at hresolve
    cases hresolve
  | some found =>
    obtain ⟨d, y⟩ := found
    cases hshared : y.storage.isShared with
    | true =>
      rw [resolve_of_nearest hnear (.inl hshared)] at hresolve
      cases hresolve
      exact h
    | false =>
      obtain ⟨z, t'', hresolve', heq⟩ := resolve_of_capture hnear hshared
      cases hresolve.symm.trans hresolve'
      obtain ⟨_, _, _, heq', hwired, -⟩ := h.captureThrough hnear hshared
      cases heq.symm.trans heq'
      exact hwired

/-- **All tables are wired.** -/
theorem Reachable.wired (h : t.Reachable) : Wired t.scopes := by
  induction h with
  | empty => exact .top Scope.kept_empty rfl
  | @define t name _ ih =>
    refine ih.replace (ih.kept.bind (Nat.le_succ _) ?_) rfl
    unfold Symbol.HasPlace
    cases t.isGlobal <;> exact Nat.lt_succ_self t.inner.definitions
  | defineBuiltin index name _ ih | defineItself name _ ih =>
    exact ih.replace (ih.kept.bind (Nat.le_refl _) trivial) rfl
  | resolve _ hresolve ih => exact wired_resolve ih hresolve
  | enter _ ih => exact .inner Scope.kept_empty nofun ih
  | @leave t t' _ hleave ih =>
    rw [scopes, outer_of_leave? hleave] at ih
    exact ih.tail

end SymbolTable

/-! ## What names lead to -/

section

variable {scopes : List Scope} {s : Scope} {rest : List Scope} {name : String} {x z : Symbol}
  {d : Nat}

/-- A symbol that has a place leads to the same binding after captures were
made. -/
theorem origin?_captureThrough (h : Wired (s :: rest)) (hz : z.HasPlace s) :
    origin? (captureThrough x d (s :: rest)).2 z = origin? (s :: rest) z := by
  induction d generalizing s rest z with
  | zero => rfl
  | succ d ih =>
    rw [captureThrough, origin?, origin?]
    split
    · next hcaptured =>
      rw [Symbol.HasPlace, hcaptured] at hz
      obtain ⟨source, hsource, -⟩ := Option.map_eq_some_iff.1 hz
      have hsource' : (s.capture (captureThrough x d rest).1).2.captures[z.index]? = some source :=
        getElem?_of_isPrefixOf (s.widens_capture _).captures hsource
      rw [hsource, hsource', Option.bind_some, Option.bind_some]
      cases h with
      | top _ hnone => simp [hnone] at hsource
      | inner _ hcaptures hrest =>
        rw [ih hrest (hcaptures source (Array.mem_of_getElem? hsource)).2]
    · rfl

/-- What a name was captured as leads where the name led before. -/
theorem origin?_captureThrough_self (hnear : nearest? name scopes = some (d, x)) :
    origin? (captureThrough x d scopes).2 (captureThrough x d scopes).1 = leadsTo? name scopes := by
  induction d generalizing scopes with
  | zero =>
    cases scopes with
    | nil => cases hnear
    | cons s rest => exact (leadsTo?_of_some (nearest?_zero hnear)).symm
  | succ d ih =>
    cases scopes with
    | nil => cases hnear
    | cons s rest =>
      obtain ⟨hfind, hnear'⟩ := nearest?_succ hnear
      rw [leadsTo?_of_none hfind, ← ih hnear']
      exact origin?_capture s _ _

/-- **All names lead where they led before**, the one that was captured as well
as the others. -/
theorem leadsTo?_captureThrough (h : Wired (s :: rest))
    (hnear : nearest? name (s :: rest) = some (d, x)) (other : String) :
    leadsTo? other (captureThrough x d (s :: rest)).2 = leadsTo? other (s :: rest) := by
  induction d generalizing s rest with
  | zero => rfl
  | succ d ih =>
    obtain ⟨hfind, hnear'⟩ := nearest?_succ hnear
    have hself := origin?_captureThrough_self hnear
    have hname : (captureThrough x d rest).1.name = name :=
      (name_captureThrough x d rest).trans (name_of_nearest? hnear)
    have hfind' := s.find?_capture (captureThrough x d rest).1 other
    rw [hname] at hfind'
    rw [captureThrough] at hself ⊢
    by_cases heq : name = other
    · subst heq
      rw [if_pos (BEq.refl name)] at hfind'
      -- The name is found one scope nearer now, as a capture that leads to the
      -- same binding.
      rw [leadsTo?_of_some hfind', hself]
    · rw [if_neg (by simpa using heq)] at hfind'
      cases hother : s.find? other with
      | some z =>
        rw [leadsTo?_of_some (hfind'.trans hother), leadsTo?_of_some hother]
        exact origin?_captureThrough (d := d + 1) h (h.hasPlace hother)
      | none =>
        rw [leadsTo?_of_none (hfind'.trans hother), leadsTo?_of_none hother]
        cases h with
        | top => cases hnear'
        | inner _ _ hrest => rw [ih hrest hnear']

/-- **From every scope all names lead where they led before.** -/
theorem leadsTo?_drop_captureThrough (h : Wired (s :: rest))
    (hnear : nearest? name (s :: rest) = some (d, x)) (k : Nat) (other : String) :
    leadsTo? other ((captureThrough x d (s :: rest)).2.drop k) =
      leadsTo? other ((s :: rest).drop k) := by
  induction d generalizing s rest k with
  | zero => rfl
  | succ d ih =>
    cases k with
    | zero => exact leadsTo?_captureThrough h hnear other
    | succ k =>
      have hnear' := (nearest?_succ hnear).2
      cases h with
      | top => cases hnear'
      | inner _ _ hrest => exact ih hrest hnear' k

end

namespace SymbolTable

/-- **What a look-up does that finds something.** The nearest binding is so many
scopes out. -/
structure Resolved (t : SymbolTable) (name : String) (d : Nat) (x : Symbol) (y : Symbol)
    (t' : SymbolTable) : Prop where
  /-- What is the same for all functions is found as it is, and so is what the
  innermost scope binds: nothing changes. -/
  unchanged : x.storage.isShared = true ∨ d = 0 → y = x ∧ t' = t
  /-- What belongs to a function further out has been captured, and the captures
  lead to it. -/
  captured : x.storage.isShared = false → 0 < d →
    y.storage = .captured ∧ follow d t'.scopes y = some x
  /-- Each nearer scope has made one capture, under which the name is bound
  there. -/
  nearer : x.storage.isShared = false → ∀ i s, i < d → t.scopes[i]? = some s →
    ∃ source, source.name = name ∧ t'.scopes[i]? = some
      { s with
        bindings := ⟨name, .captured, s.captures.size⟩ :: s.bindings
        captures := s.captures.push source }
  /-- The other scopes are the same. -/
  further : ∀ i, d ≤ i → t'.scopes[i]? = t.scopes[i]?
  /-- To look the name up again finds the same and changes nothing. -/
  again : t'.resolve name = some (y, t')
  /-- Seen from every scope, all names lead where they led before. -/
  others : ∀ k other, leadsTo? other (t'.scopes.drop k) = leadsTo? other (t.scopes.drop k)

variable {t : SymbolTable} {name : String} {x : Symbol} {d : Nat}

/-- A look-up finds what is bound. -/
theorem Reachable.resolved (ht : t.Reachable) (h : nearest? name t.scopes = some (d, x)) :
    ∃ y t', t.resolve name = some (y, t') ∧ Resolved t name d x y t' := by
  by_cases hhere : x.storage.isShared = true ∨ d = 0
  · have hresolve := resolve_of_nearest h hhere
    refine ⟨x, t, hresolve, fun _ => ⟨rfl, rfl⟩, fun hshared hd => ?_, fun hshared i s hi => ?_,
      fun _ _ => rfl, hresolve, fun _ _ => rfl⟩
    · rcases hhere with hshared' | rfl
      · simp [hshared] at hshared'
      · cases hd
    · rcases hhere with hshared' | rfl
      · simp [hshared] at hshared'
      · cases hi
  · obtain ⟨hshared, hd⟩ := not_or.1 hhere
    have hshared' := Bool.eq_false_iff.2 hshared
    obtain ⟨y, t', hresolve, heq⟩ := resolve_of_capture h hshared'
    have hscopes : (captureThrough x d t.scopes).2 = t'.scopes := by rw [heq]
    have hy : (captureThrough x d t.scopes).1 = y := by rw [heq]
    have hfollow := follow_captureThrough (x := x) (Nat.le_of_lt (length_of_nearest? h))
    obtain ⟨d, rfl⟩ := Nat.exists_eq_succ_of_ne_zero hd
    have hcaptured : y.storage = .captured := by rw [← hy]; rfl
    rw [hscopes, hy] at hfollow
    refine ⟨y, t', hresolve, fun hhere' => (hhere hhere').elim, fun _ _ => ⟨hcaptured, hfollow⟩,
      fun _ i s hi hs => ?_, fun i hi => ?_, ?_, fun k other => ?_⟩
    · obtain ⟨source, hname, hsource⟩ := getElem?_captureThrough_of_lt (x := x) hi hs
      rw [hscopes] at hsource
      cases hname.trans (name_of_nearest? h)
      exact ⟨source, rfl, hsource⟩
    · rw [← hscopes]
      exact getElem?_captureThrough_of_le hi
    · -- The innermost scope binds the name now, to what was found.
      have hagain : nearest? name (captureThrough x (d + 1) t.scopes).2 =
          some (0, (captureThrough x (d + 1) t.scopes).1) :=
        nearest?_captureThrough (name_of_nearest? h)
      rw [hscopes, hy] at hagain
      exact resolve_of_nearest hagain (.inr rfl)
    · rw [← hscopes]
      exact leadsTo?_drop_captureThrough ht.wired h k other

end SymbolTable

namespace Wired

variable {scopes : List Scope} {s next : Scope} {i : Nat}

/-- All scopes of the chain are well kept. -/
theorem kept_of_mem (h : Wired scopes) (hs : s ∈ scopes) : s.Kept := by
  induction h with
  | top hkept =>
    cases List.mem_singleton.1 hs
    exact hkept
  | inner hkept _ _ ih =>
    rcases List.mem_cons.1 hs with rfl | hrest
    · exact hkept
    · exact ih hrest

/-- What a scope captures is a variable of the next scope, something that the
next scope has captured under the same name, or the function of the next
scope. -/
theorem source (h : Wired scopes) (hs : scopes[i]? = some s) (hnext : scopes[i + 1]? = some next)
    {x : Symbol} (hx : x ∈ s.captures) :
    x.storage = .frame ∧ x.index < next.definitions ∨
      x.storage = .captured ∧ next.captures[x.index]?.map Symbol.name = some x.name ∨
        x.storage = .itself := by
  induction h generalizing i with
  | top => cases hnext
  | inner _ hcaptures _ ih =>
    cases i with
    | succ i => exact ih hs hnext
    | zero =>
      cases hs
      cases hnext
      obtain ⟨hshared, hplace⟩ := hcaptures x hx
      obtain ⟨name, storage, index⟩ := x
      cases storage with
      | global | builtin => cases hshared
      | frame => exact .inl ⟨rfl, hplace⟩
      | captured => exact .inr (.inl ⟨rfl, hplace⟩)
      | itself => exact .inr (.inr rfl)

/-- The top level captures nothing, as there is nothing around it. -/
theorem captures_outermost (h : Wired scopes) (hs : scopes[i]? = some s)
    (hnext : scopes[i + 1]? = none) : s.captures = #[] := by
  induction h generalizing i with
  | top _ hnone =>
    cases i with
    | zero => cases hs; exact hnone
    | succ i => cases hs
  | inner _ _ _ ih =>
    cases i with
    | zero => cases hnext
    | succ i => exact ih hs hnext

end Wired

/-- **Names are resolved faithfully.** In a table of any history, a name is
found unless no scope binds it; then there is no table to go on with but the one
there was. What is found is the nearest binding itself, or a capture that leads
to it scope by scope, each scope on the way having made one capture and nothing
else having changed. To look the name up again changes nothing, and other names
are not affected. No scope captures a name twice, and what it captures is there
in the next one. -/
theorem SymbolTable.resolution_is_faithful {t : SymbolTable} (ht : t.Reachable) (name : String) :
    (t.resolve name = none ↔ ∀ s ∈ t.scopes, s.find? name = none) ∧
      (∀ d x, nearest? name t.scopes = some (d, x) →
        ∃ y t', t.resolve name = some (y, t') ∧ Resolved t name d x y t') ∧
      (∀ s ∈ t.scopes, (s.captures.toList.map Symbol.name).Nodup) ∧
      (∀ i s next, t.scopes[i]? = some s → t.scopes[i + 1]? = some next → ∀ x ∈ s.captures,
        x.storage = .frame ∧ x.index < next.definitions ∨
          x.storage = .captured ∧ next.captures[x.index]?.map Symbol.name = some x.name ∨
            x.storage = .itself) ∧
      ∀ i s, t.scopes[i]? = some s → t.scopes[i + 1]? = none → s.captures = #[] :=
  ⟨resolve_eq_none_iff, fun _ _ => ht.resolved, fun _ hs => (ht.wired.kept_of_mem hs).once,
    fun _ _ _ hs hnext _ hx => ht.wired.source hs hnext hx,
    fun _ _ hs hnext => ht.wired.captures_outermost hs hnext⟩

/-- A function captures a name and then binds it itself. From a function inside
of it, the name leads to the new binding, and other names lead to where they led
before. -/
theorem SymbolTable.resolution_is_faithful_shadowed :
    let around := ((empty.define "g").2.enter.define "a").2.enter
    let captured := ((around.resolve "a").map Prod.snd).getD around
    let t := (captured.define "a").2.enter
    nearest? "a" t.scopes = some (1, ⟨"a", .frame, 0⟩) ∧
      ∃ y t', t.resolve "a" = some (y, t') ∧ follow 1 t'.scopes y = some ⟨"a", .frame, 0⟩ ∧
        t'.resolve "a" = some (y, t') ∧ leadsTo? "g" t'.scopes = some (3, ⟨"g", .global, 0⟩) := by
  intro around captured t
  have hcaptured : around.resolve "a" = some (⟨"a", .captured, 0⟩, captured) := by decide
  have ht : t.Reachable :=
    .enter (.define "a" (.resolve (.enter (.define "a" (.enter (.define "g" .empty)))) hcaptured))
  have hnear : nearest? "a" t.scopes = some (1, ⟨"a", .frame, 0⟩) := by decide
  obtain ⟨y, t', hresolve, hresolved⟩ := (resolution_is_faithful ht "a").2.1 _ _ hnear
  refine ⟨hnear, y, t', hresolve, (hresolved.captured rfl Nat.one_pos).2, hresolved.again, ?_⟩
  exact (hresolved.others 0 "g").trans (by decide)

end StackScript
