import StackScript.Proofs.Compiler.Emitted
import StackScript.Proofs.Symbol.Coherence

/-!
# Global names from program to program

A program binds names at the top level, and which these are can be read off the
program alone (`boundNames`): a binding counts wherever it stands, in a branch
or among the arguments of a call, unless it stands in a function. A name that a
program does not bind is found afterwards where it was found before
(`Writes.find?_global`).

However many programs there have been, every global has a slot that an operand
can name (`Scope.Addressed`): a binding beyond the last slot does not compile.
-/

namespace StackScript

/-! ## The names that a program binds -/

namespace Names

/-- Two bindings, the later one with the higher number. -/
def Newer (later earlier : String × Binder) : Prop :=
  ∀ n k, later.2 = .site n → earlier.2 = .site k → k < n

/-- **Names have been added** to some that were there before, with a new
variable for each. -/
def Adds (ns : Names) (names : List String) (ns' : Names) : Prop :=
  ∃ added, ns'.bound = added ++ ns.bound ∧ added.map Prod.fst = names ∧
    ns'.sites = ns.sites + added.length ∧
    (∀ entry ∈ added, ∃ n, entry.2 = .site n ∧ ns.sites ≤ n ∧ n < ns'.sites) ∧
    added.Pairwise Newer

section

variable {ns ns₁ ns₂ : Names} {xs ys : List String}

theorem Adds.refl (ns : Names) : ns.Adds [] ns := ⟨[], rfl, rfl, rfl, nofun, .nil⟩

/-- Names that are added after others stand in front of them, and their
variables have higher numbers. -/
theorem Adds.trans (h₁ : ns.Adds xs ns₁) (h₂ : ns₁.Adds ys ns₂) : ns.Adds (ys ++ xs) ns₂ := by
  obtain ⟨added₁, hbound₁, rfl, hsites₁, hnew₁, horder₁⟩ := h₁
  obtain ⟨added₂, hbound₂, rfl, hsites₂, hnew₂, horder₂⟩ := h₂
  refine ⟨added₂ ++ added₁, by rw [hbound₂, hbound₁, List.append_assoc], List.map_append, ?_, ?_,
    List.pairwise_append.2 ⟨horder₂, horder₁, ?_⟩⟩
  · rw [hsites₂, hsites₁, List.length_append, Nat.add_assoc, Nat.add_comm added₁.length]
  · intro entry hentry
    rcases List.mem_append.1 hentry with hentry | hentry
    · obtain ⟨n, hn, hle, hlt⟩ := hnew₂ entry hentry
      exact ⟨n, hn, by omega, hlt⟩
    · obtain ⟨n, hn, hle, hlt⟩ := hnew₁ entry hentry
      exact ⟨n, hn, hle, by omega⟩
  · intro later hlater earlier hearlier n k hn hk
    obtain ⟨n', hn', hle, -⟩ := hnew₂ later hlater
    obtain ⟨k', hk', -, hlt⟩ := hnew₁ earlier hearlier
    cases hn.symm.trans hn'
    cases hk.symm.trans hk'
    exact Nat.lt_of_lt_of_le hlt hle

/-- A name that was not added is bound to what it was bound to before. -/
theorem Adds.lookup (h : ns.Adds xs ns₁) {name : String} (hname : name ∉ xs) :
    ns₁.bound.lookup name = ns.bound.lookup name := by
  obtain ⟨added, hbound, rfl, -, -⟩ := h
  have hnone : added.lookup name = none := by
    rw [List.lookup_eq_none_iff]
    intro entry hentry
    rw [bne_iff_ne]
    rintro rfl
    exact hname (List.mem_map_of_mem hentry)
  rw [hbound, List.lookup_append, hnone, Option.none_or]

end

/-- **A change that adds the same names** to whatever is there. -/
def Additive (f : Names → Names) : Prop := ∃ names, ∀ ns : Names, ns.Adds names (f ns)

section

variable {f g : Names → Names}

theorem Additive.id : Additive fun ns => ns := ⟨[], .refl⟩

/-- One such change after another adds the names of both. -/
theorem Additive.comp (hf : Additive f) (hg : Additive g) : Additive fun ns => g (f ns) := by
  obtain ⟨xs, hxs⟩ := hf
  obtain ⟨ys, hys⟩ := hg
  exact ⟨ys ++ xs, fun ns => (hxs ns).trans (hys (f ns))⟩

/-- A binding adds its name. -/
theorem additive_bind (name : String) : Additive fun ns => ns.bind name :=
  ⟨[name], fun ns => ⟨[(name, .site ns.sites)], rfl, rfl, rfl,
    List.forall_mem_singleton.2 ⟨_, rfl, Nat.le_refl _, Nat.lt_succ_self _⟩,
    List.pairwise_singleton _ _⟩⟩

/-- What is added is what is there when nothing was there before. -/
theorem Additive.adds (hf : Additive f) (ns : Names) :
    ns.Adds ((f empty).bound.map Prod.fst) (f ns) := by
  obtain ⟨names, hnames⟩ := hf
  obtain ⟨added, hbound, rfl, -, -⟩ := hnames empty
  rw [hbound, show empty.bound = [] from rfl, List.append_nil]
  exact hnames ns

/-- Variables are counted upwards only. -/
theorem Additive.sites_le (hf : Additive f) (ns : Names) : ns.sites ≤ (f ns).sites := by
  obtain ⟨added, -, -, hsites, -⟩ := hf.adds ns
  exact hsites ▸ Nat.le_add_right ..

end

mutual

/-- **An expression adds the same names wherever it stands.** A function adds
none: its own names are not seen outside. -/
theorem additive_skip (e : Expr) : Additive fun ns => ns.skip e := by
  match e with
  | .ident .. | .number .. | .boolean .. | .string .. | .function .. =>
    simp only [skip]
    exact .id
  | .unary _ operand _ =>
    simp only [skip]
    exact additive_skip operand
  | .binary op left right _ =>
    by_cases hop : op = .less
    · subst hop
      simp only [skip]
      exact (additive_skip right).comp (additive_skip left)
    · simp only [skip_binary _ _ _ _ hop]
      exact (additive_skip left).comp (additive_skip right)
  | .cond test (.mk yes _) no _ =>
    have hno : Additive fun ns => ns.skipBlock (otherwise no) := by
      match no with
      | none => exact additive_skipBlock []
      | some (.mk body _) => exact additive_skipBlock body
    simp only [skip, skipBranch, skipOther_eq]
    exact ((additive_skip test).comp (additive_skipBlock yes)).comp hno
  | .call callee args _ =>
    simp only [skip]
    exact (additive_skip callee).comp (additive_skipAll args)
  | .array items _ =>
    simp only [skip]
    exact additive_skipAll items
  | .index container key _ =>
    simp only [skip]
    exact (additive_skip container).comp (additive_skip key)
  | .map entries _ =>
    simp only [skip]
    exact additive_skipPairs entries

/-- So do expressions in a row. -/
theorem additive_skipAll (es : List Expr) : Additive fun ns => ns.skipAll es := by
  match es with
  | [] =>
    simp only [skipAll]
    exact .id
  | e :: rest =>
    simp only [skipAll]
    exact (additive_skip e).comp (additive_skipAll rest)

/-- So do the keys and values of a map. -/
theorem additive_skipPairs (entries : List (Expr × Expr)) :
    Additive fun ns => ns.skipPairs entries := by
  match entries with
  | [] =>
    simp only [skipPairs]
    exact .id
  | (key, value) :: rest =>
    simp only [skipPairs]
    exact ((additive_skip key).comp (additive_skip value)).comp (additive_skipPairs rest)

/-- So does a statement, with the name that it binds. -/
theorem additive_skipStmt (s : Stmt) : Additive fun ns => ns.skipStmt s := by
  match s with
  | .expr value _ | .ret value _ =>
    simp only [skipStmt]
    exact additive_skip value
  | .bind name value _ =>
    simp only [skipStmt]
    exact (additive_skip value).comp (additive_bind name.name)

/-- So does a block, or a whole program. `boundNames` are the names it adds. -/
theorem additive_skipBlock (block : List Stmt) : Additive fun ns => ns.skipBlock block := by
  match block with
  | [] =>
    simp only [skipBlock]
    exact .id
  | s :: rest =>
    simp only [skipBlock]
    exact (additive_skipStmt s).comp (additive_skipBlock rest)

end

end Names

/-- **The names that a program binds at the top level**, the latest first. -/
def boundNames (program : List Stmt) : List String :=
  (Names.empty.skipBlock program).bound.map Prod.fst

/-- **A name that a program does not bind means what it meant before.** -/
theorem Names.lookup_skipBlock {program : List Stmt} {name : String}
    (h : name ∉ boundNames program) (ns : Names) :
    (ns.skipBlock program).bound.lookup name = ns.bound.lookup name :=
  ((additive_skipBlock program).adds ns).lookup h

example :
    boundNames ((parse "let a = fn() { let b = 1; }; if (a) { let c = 2; }").toOption.getD []) =
    ["c", "a"] := by decide +kernel

/-! ## Slots -/

/-- **The globals of a scope have slots** that an operand can name, and there
are no more of them than have been counted. -/
structure Scope.Addressed (s : Scope) : Prop where
  /-- There are as many slots as an operand can name. -/
  definitions : s.definitions ≤ 65536
  /-- The globals are among those that have been counted. -/
  bounded : ∀ name n, (name, Binder.site n) ∈ s.own → n < s.definitions

/-- Slots that have been given stay within the bound when nothing is bound at
the top level. -/
theorem Scope.Addressed.of_grows {s s' : Scope} (h : s.Addressed) (hs : s.Grows s') :
    s'.Addressed := by
  refine ⟨hs.definitions.symm ▸ h.definitions, ?_⟩
  rw [hs.own, hs.definitions]
  exact h.bounded

namespace SymbolTable

/-- The scope of the top level. -/
def top (t : SymbolTable) : Scope := topScope t.inner t.outer

variable {t t' : SymbolTable} {name : String}

/-- The top level is the last scope of the chain, and grows as all of them
do. -/
theorem top_grows (hinner : t.inner.Grows t'.inner)
    (houter : List.Forall₂ Scope.Grows t.outer t'.outer) : t.top.Grows t'.top := by
  obtain ⟨inner, outer⟩ := t
  obtain ⟨inner', outer'⟩ := t'
  dsimp only at hinner houter
  induction houter generalizing inner inner' with
  | nil => exact hinner
  | cons hnext _ ih => exact ih _ _ hnext

/-- A function that is left is not the top level. -/
theorem top_of_leave? (h : t.leave? = some t') : t.top = t'.top := by
  rw [top, outer_of_leave? h]
  rfl

/-- Nor is one that is entered. -/
theorem top_enterFunction (t : SymbolTable) (name : Option String) (params : List Ident) :
    (t.enterFunction name params).top = t.top := by
  rw [top, outer_enterFunction]
  rfl

/-- At the top level nothing is captured. -/
theorem resolve_of_find? {x : Symbol} (houter : t.outer = []) (h : t.inner.find? name = some x) :
    t.resolve name = some (x, t) := by
  obtain ⟨inner, outer⟩ := t
  cases houter
  rw [resolve, resolveFrom, h]
  rfl

/-- A binding that has a slot is counted. -/
theorem addressed_define {i : Instruction} (h : t.top.Addressed)
    (hstore : (t.define name).1.store? = some i) : (t.define name).2.top.Addressed := by
  obtain ⟨inner, outer⟩ := t
  cases outer with
  | cons => exact h
  | nil =>
    have hlt : inner.definitions < 65536 := (Option.ite_none_right_eq_some.1 hstore).1
    have hnames := names_define ⟨inner, []⟩ name
    have hown : ((⟨inner, []⟩ : SymbolTable).define name).2.inner.own =
        (name, .site inner.definitions) :: inner.own := congrArg Names.bound hnames
    refine ⟨hlt, fun name' n hmem => ?_⟩
    rcases List.mem_cons.1 (hown ▸ hmem) with heq | hmem
    · cases heq
      exact Nat.lt_succ_self _
    · exact Nat.lt_succ_of_lt (h.bounded name' n hmem)

end SymbolTable

/-- **Compiling keeps the globals within the slots there are.** -/
theorem Writes.addressed {c c' : Setting} {start : Nat} {p : Phrase} {is : List Instruction}
    (hw : Writes c start p is c') (hc : c.symbols.Coherent) (h : c.symbols.top.Addressed) :
    c'.symbols.top.Addressed := by
  induction hw with
  | ident hresolve =>
    obtain ⟨-, hinner, houter, -⟩ := hc.resolve hresolve
    exact h.of_grows (SymbolTable.top_grows hinner houter)
  | number _ hintern | string hintern =>
    rw [Setting.symbols_of_intern hintern]
    exact h
  | boolean | exprsNil | pairsNil | branchNil | bodyNil | stmtsNil => exact h
  | unary _ ih | array _ _ ih | map _ _ ih | branchExpr _ ih | bodyExpr _ ih | bodyRet _ _ ih
  | stmtExpr _ ih | stmtRet _ _ ih => exact ih hc h
  | stmtBind _ hstore ih => exact SymbolTable.addressed_define (ih hc h) hstore
  | less h₁ _ ih₁ ih₂ | binary _ h₁ _ ih₁ ih₂ | call h₁ _ _ ih₁ ih₂ | index h₁ _ ih₁ ih₂
  | exprsCons h₁ _ ih₁ ih₂ | branchCons _ h₁ _ ih₁ ih₂ | bodyCons _ h₁ _ ih₁ ih₂
  | stmtsCons h₁ _ ih₁ ih₂ => exact ih₂ (h₁.extends hc).coherent (ih₁ hc h)
  | cond h₁ h₂ _ _ _ _ _ ih₁ ih₂ ih₃ | pairsCons h₁ h₂ _ ih₁ ih₂ ih₃ =>
    have hc₁ := (h₁.extends hc).coherent
    exact ih₃ (h₂.extends hc₁).coherent (ih₂ hc₁ (ih₁ hc h))
  | function _ _ hleave _ _ _ ih =>
    -- The top level is the same scope seen from inside of the function.
    rw [← SymbolTable.top_enterFunction] at h
    exact SymbolTable.top_of_leave? hleave ▸ ih (hc.enterFunction _ _) h

/-! ## Bindings of the top level -/

/-- **Globals have been bound** after all that a scope had bound before. -/
def Scope.BindsGlobals (s s' : Scope) : Prop :=
  ∃ globals : List Symbol, s'.bindings = globals ++ s.bindings ∧ ∀ x ∈ globals, x.storage = .global

namespace Scope.BindsGlobals

variable {s s₁ s₂ : Scope}

theorem refl (s : Scope) : s.BindsGlobals s := ⟨[], rfl, nofun⟩

/-- What is bound later stands in front of what is bound before. -/
theorem trans (h₁ : s.BindsGlobals s₁) (h₂ : s₁.BindsGlobals s₂) : s.BindsGlobals s₂ := by
  obtain ⟨first, hfirst, hglobal₁⟩ := h₁
  obtain ⟨second, hsecond, hglobal₂⟩ := h₂
  exact ⟨second ++ first, by rw [hsecond, hfirst, List.append_assoc],
    List.forall_mem_append.2 ⟨hglobal₂, hglobal₁⟩⟩

end Scope.BindsGlobals

namespace SymbolTable

variable {t t' : SymbolTable} {name : String}

/-- A look-up leaves the top level as it is. Captures are made in functions
only, and the top level is none. -/
theorem topScope_of_resolveFrom {inner inner' : Scope} {outer outer' : List Scope} {x : Symbol}
    (h : resolveFrom name inner outer = some (x, inner', outer')) :
    topScope inner' outer' = topScope inner outer := by
  induction outer generalizing inner inner' outer' x with
  | nil =>
    obtain ⟨found, -, heq⟩ := Option.map_eq_some_iff.1 h
    cases heq
    rfl
  | cons next rest ih =>
    rw [resolveFrom] at h
    split at h
    · cases h
      rfl
    · split at h
      · cases h
      · next hrec =>
        have htop := ih hrec
        split at h <;> cases h <;> exact htop

/-- Looking a name up changes the functions that capture it, but never the top
level. -/
theorem top_of_resolve {x : Symbol} (h : t.resolve name = some (x, t')) : t'.top = t.top := by
  obtain ⟨⟨x', inner, outer⟩, hrec, heq⟩ := Option.map_eq_some_iff.1 h
  cases heq
  exact topScope_of_resolveFrom hrec

/-- A definition binds a global at the top level. In a function it binds nothing
there. -/
theorem top_define (t : SymbolTable) (name : String) :
    t.top.BindsGlobals (t.define name).2.top := by
  obtain ⟨inner, outer⟩ := t
  cases outer with
  | nil => exact ⟨[⟨name, .global, inner.definitions⟩], rfl, List.forall_mem_singleton.2 rfl⟩
  | cons => exact .refl _

end SymbolTable

/-- **Compiling binds globals at the top level and nothing else.** -/
theorem Writes.bindsGlobals {c c' : Setting} {start : Nat} {p : Phrase} {is : List Instruction}
    (hw : Writes c start p is c') : c.symbols.top.BindsGlobals c'.symbols.top := by
  induction hw with
  | ident hresolve => exact SymbolTable.top_of_resolve hresolve ▸ .refl _
  | number _ hintern | string hintern =>
    rw [Setting.symbols_of_intern hintern]
    exact .refl _
  | boolean | exprsNil | pairsNil | branchNil | bodyNil | stmtsNil => exact .refl _
  | unary _ ih | array _ _ ih | map _ _ ih | branchExpr _ ih | bodyExpr _ ih | bodyRet _ _ ih
  | stmtExpr _ ih | stmtRet _ _ ih => exact ih
  | stmtBind _ _ ih => exact ih.trans (SymbolTable.top_define _ _)
  | less _ _ ih₁ ih₂ | binary _ _ _ ih₁ ih₂ | call _ _ _ ih₁ ih₂ | index _ _ ih₁ ih₂
  | exprsCons _ _ ih₁ ih₂ | branchCons _ _ _ ih₁ ih₂ | bodyCons _ _ _ ih₁ ih₂
  | stmtsCons _ _ ih₁ ih₂ => exact ih₁.trans ih₂
  | cond _ _ _ _ _ _ _ ih₁ ih₂ ih₃ | pairsCons _ _ _ ih₁ ih₂ ih₃ => exact (ih₁.trans ih₂).trans ih₃
  | function _ _ hleave _ _ _ ih =>
    rw [SymbolTable.top_enterFunction] at ih
    exact SymbolTable.top_of_leave? hleave ▸ ih

/-! ## Global names -/

section

variable {name : String} {x : Symbol}

/-- A global is the variable of its number. -/
theorem Symbol.binder?_of_global (h : x.storage = .global) : x.binder? = some (.site x.index) := by
  rw [Symbol.binder?, h]

/-- A global has been counted. -/
theorem Scope.Addressed.index_lt_definitions {s : Scope} (h : s.Addressed)
    (hfind : s.find? name = some x) (hglobal : x.storage = .global) : x.index < s.definitions := by
  refine h.bounded x.name x.index (List.mem_filterMap.2 ⟨x, List.mem_of_find?_eq_some hfind, ?_⟩)
  rw [Symbol.binder?_of_global hglobal]
  rfl

/-- A global has a slot that an operand can name. -/
theorem Scope.Addressed.index_lt {s : Scope} (h : s.Addressed) (hfind : s.find? name = some x)
    (hglobal : x.storage = .global) : x.index < 65536 :=
  Nat.lt_of_lt_of_le (h.index_lt_definitions hfind hglobal) h.definitions

/-- Of the names that are bound at the top level, all are globals. -/
theorem Scope.IsTop.find?_of_lookup {s : Scope} (h : s.IsTop) {n : Nat}
    (hlookup : s.own.lookup name = some (.site n)) : s.find? name = some ⟨name, .global, n⟩ := by
  cases hfind : s.find? name with
  | none =>
    rw [lookup_own_of_find?_none hfind] at hlookup
    cases hlookup
  | some x =>
    rcases h.seen name x hfind with hglobal | ⟨-, hnone, -⟩
    · rw [lookup_own_of_find? hfind (Symbol.binder?_of_global hglobal)] at hlookup
      cases hlookup
      rw [← hglobal, ← name_of_find? hfind]
    · rw [hnone] at hlookup
      cases hlookup

/-- **A global that a program does not bind again is found where it was found
before.** -/
theorem Writes.find?_global {c c' : Setting} {start : Nat} {program : List Stmt}
    {is : List Instruction} (hw : Writes c start (.stmts program) is c') (hc : c.symbols.Coherent)
    (houter : c.symbols.outer = []) (hfind : c.symbols.inner.find? name = some x)
    (hglobal : x.storage = .global) (hname : name ∉ boundNames program) :
    c'.symbols.inner.find? name = some x := by
  have hext := hw.extends hc
  have htop : c'.symbols.inner.IsTop := by
    have houter' := hext.outer
    rw [houter] at houter'
    have hchain := hext.coherent.isTop
    rwa [List.forall₂_nil_left_iff.1 houter'] at hchain
  have hlookup : c'.symbols.inner.own.lookup name = some (.site x.index) :=
    calc c'.symbols.inner.own.lookup name
        = (c.symbols.inner.names.skipBlock program).bound.lookup name :=
          congrArg (fun ns : Names => ns.bound.lookup name) hext.names
      _ = c.symbols.inner.own.lookup name := Names.lookup_skipBlock hname _
      _ = some (.site x.index) :=
          Scope.lookup_own_of_find? hfind (Symbol.binder?_of_global hglobal)
  rw [htop.find?_of_lookup hlookup, ← hglobal, ← Scope.name_of_find? hfind]

end

namespace Compiler

variable {c : Compiler}

/-- The names between two programs can be relied on. -/
theorem Reached.coherent (h : Reached c) : c.symbols.Coherent := by
  induction h with
  | initial => exact SymbolTable.coherent_initial
  | compile h hcompile ih =>
    obtain ⟨is, hw, -⟩ := h.level.1.laid hcompile
    exact (hw.extends ih).coherent
  | restate _ ih => exact ih

/-- **Between two programs, every global has a slot.** -/
theorem Reached.addressed (h : Reached c) : c.symbols.inner.Addressed := by
  have htop : c.symbols.top.Addressed := by
    induction h with
    | initial => exact ⟨Nat.zero_le _, nofun⟩
    | compile h hcompile ih =>
      obtain ⟨is, hw, -⟩ := h.level.1.laid hcompile
      exact hw.addressed h.coherent ih
    | restate _ ih => exact ih
  rwa [SymbolTable.top, h.level.2] at htop

end Compiler

end StackScript
