import Mathlib.Data.List.Nodup
import Mathlib.Data.List.Range
import StackScript.Proofs.Compiler.Emitted
import StackScript.Proofs.Compiler.Relocation

/-!
# The variables that code sets

Every binding has a variable of its own: the compiler numbers the variables of a
function, and those of the top level, in the order in which it comes to their
bindings, and code sets a variable at its binding only. So the variables that
some code sets, from its beginning to its end, are the numbers from the first to
the last one that was given meanwhile (`Writes.sets`).

It follows that no variable is set in two places, that a function sets only
variables of its own (`Routine.Tidy`), and that the top level sets only globals
(`Writes.sets_top`).
-/

namespace StackScript

open Instruction (encodeAll sizeAll)

/-- **A variable that code can set**, by its number. -/
inductive Variable where
  /-- A global. -/
  | global (number : Nat)
  /-- A variable of the frame that runs the code. -/
  | frame (number : Nat)
deriving DecidableEq

namespace Instruction

/-- The variable that an instruction sets, if it sets one. -/
def sets? : Instruction → Option Variable
  | setGlobal n => some (.global n.toNat)
  | setLocal n => some (.frame n.toNat)
  | _ => none

/-- The variables that instructions set, in order. -/
def setsAll (is : List Instruction) : List Variable := is.filterMap sets?

@[simp] theorem setsAll_nil : setsAll [] = [] := rfl

@[simp] theorem setsAll_append (is js : List Instruction) :
    setsAll (is ++ js) = setsAll is ++ setsAll js := List.filterMap_append

theorem setsAll_cons_of_none {i : Instruction} (h : i.sets? = none) (is : List Instruction) :
    setsAll (i :: is) = setsAll is := List.filterMap_cons_none h

theorem mem_setsAll {is : List Instruction} {x : Variable} :
    x ∈ setsAll is ↔ ∃ i ∈ is, i.sets? = some x := List.mem_filterMap

/-- What the beginning of some code sets is set by the whole. -/
theorem setsAll_subset {is js : List Instruction} (h : is <+: js) : setsAll is ⊆ setsAll js :=
  (h.filterMap sets?).subset

end Instruction

open Instruction (setsAll sets?)

/-! ## Numbers -/

namespace SymbolTable

variable {t t' : SymbolTable} {name : String} {x : Symbol} {n k : Nat}

/-- The variable that a number of the innermost scope stands for. -/
def numbered (t : SymbolTable) (n : Nat) : Variable := if t.isGlobal then .global n else .frame n

/-- Two numbers of a scope are two variables, which is why giving numbers in
order gives no variable twice. -/
theorem numbered_injective (h : t.numbered n = t.numbered k) : n = k := by
  unfold numbered at h
  split at h <;> cases h <;> rfl

/-- Looking a name up gives out no numbers. -/
theorem definitions_resolveFrom {s s' : Scope} {outer outer' : List Scope}
    (h : resolveFrom name s outer = some (x, s', outer')) : s'.definitions = s.definitions ∧
      outer'.map Scope.definitions = outer.map Scope.definitions := by
  induction outer generalizing s s' outer' x with
  | nil =>
    obtain ⟨x', -, heq⟩ := Option.map_eq_some_iff.1 h
    cases heq
    exact ⟨rfl, rfl⟩
  | cons next rest ih =>
    rw [resolveFrom] at h
    split at h
    · cases h
      exact ⟨rfl, rfl⟩
    · split at h
      · cases h
      · next hrec =>
        obtain ⟨hnext, hrest⟩ := ih hrec
        split at h <;> cases h <;> exact ⟨rfl, by rw [List.map_cons, List.map_cons, hnext, hrest]⟩

/-- A look-up binds nothing: no scope has more variables afterwards. It may
capture, but captures are not set. -/
theorem definitions_resolve (h : t.resolve name = some (x, t')) :
    t'.inner.definitions = t.inner.definitions ∧
      t'.outer.map Scope.definitions = t.outer.map Scope.definitions := by
  obtain ⟨⟨x', inner, outer⟩, hfrom, heq⟩ := Option.map_eq_some_iff.1 h
  cases heq
  exact definitions_resolveFrom hfrom

/-- A binding sets the variable that it has just been given. -/
theorem sets?_store {i : Instruction} (h : (t.define name).1.store? = some i) :
    i.sets? = some (t.numbered t.inner.definitions) := by
  obtain ⟨inner, outer⟩ := t
  cases outer with
  | nil | cons =>
    obtain ⟨hlt, heq⟩ := Option.ite_none_right_eq_some.1 h
    cases heq
    simp [sets?, numbered, isGlobal, define, Nat.mod_eq_of_lt (show inner.definitions < _ from hlt)]

end SymbolTable

/-! ## Code -/

/-- **Code that sets the variables that are bound meanwhile**, each once and in
order. -/
structure Sets (c : Setting) (is : List Instruction) (c' : Setting) : Prop where
  /-- The functions around get no variables. -/
  outer : c'.symbols.outer.map Scope.definitions = c.symbols.outer.map Scope.definitions
  /-- Variables are numbered one after the other. -/
  definitions : c.symbols.inner.definitions ≤ c'.symbols.inner.definitions
  /-- The variables that were numbered are those that are set. -/
  sets : setsAll is = (List.range' c.symbols.inner.definitions
    (c'.symbols.inner.definitions - c.symbols.inner.definitions)).map c.symbols.numbered

namespace Sets

variable {c c₁ c₂ : Setting} {is js : List Instruction} {i : Instruction}

/-- Code that sets nothing, while nothing is bound. -/
theorem of_eq (hinner : c₁.symbols.inner.definitions = c.symbols.inner.definitions)
    (houter : c₁.symbols.outer.map Scope.definitions = c.symbols.outer.map Scope.definitions)
    (his : setsAll is = []) : Sets c is c₁ :=
  ⟨houter, Nat.le_of_eq hinner.symm, by rw [his, hinner, Nat.sub_self]; rfl⟩

theorem refl (c : Setting) (h : setsAll is = []) : Sets c is c := of_eq rfl rfl h

/-- Code is at the top level afterwards if it was before. -/
theorem isGlobal (h : Sets c is c₁) : c₁.symbols.isGlobal = c.symbols.isGlobal := by
  have hempty := congrArg List.isEmpty h.outer
  rwa [List.isEmpty_map, List.isEmpty_map] at hempty

/-- So numbers stand for the same variables before and afterwards. -/
theorem numbered_eq (h : Sets c is c₁) : c₁.symbols.numbered = c.symbols.numbered := by
  funext n
  rw [SymbolTable.numbered, SymbolTable.numbered, h.isGlobal]

/-- Code after code. -/
theorem trans (h₁ : Sets c is c₁) (h₂ : Sets c₁ js c₂) : Sets c (is ++ js) c₂ := by
  refine ⟨h₂.outer.trans h₁.outer, Nat.le_trans h₁.definitions h₂.definitions, ?_⟩
  obtain ⟨a, ha⟩ := Nat.exists_eq_add_of_le h₁.definitions
  obtain ⟨b, hb⟩ := Nat.exists_eq_add_of_le h₂.definitions
  rw [Instruction.setsAll_append, h₁.sets, h₂.sets, h₁.numbered_eq, ← List.map_append,
    hb, ha, Nat.add_sub_cancel_left, Nat.add_sub_cancel_left, Nat.add_assoc,
      Nat.add_sub_cancel_left,
    List.range'_append_1]

/-- An instruction that sets nothing follows code. -/
theorem concat (h : Sets c is c₁) (hi : i.sets? = none) : Sets c (is ++ [i]) c₁ :=
  h.trans (refl c₁ (Instruction.setsAll_cons_of_none hi []))

/-- An instruction that sets nothing precedes code. -/
theorem cons (hi : i.sets? = none) (h : Sets c is c₁) : Sets c (i :: is) c₁ :=
  (refl c (Instruction.setsAll_cons_of_none hi []) : Sets c [i] c).trans h

end Sets

namespace Symbol

/-- The instruction that loads a symbol sets nothing. -/
theorem sets?_of_load? {x : Symbol} {i : Instruction} (h : x.load? = some i) : i.sets? = none := by
  obtain ⟨name, storage, index⟩ := x
  cases storage with
  | itself => cases h; rfl
  | global | frame | builtin | captured =>
    obtain ⟨-, heq⟩ := Option.ite_none_right_eq_some.1 h
    cases heq
    rfl

/-- Nor do those that load all captures of a function. -/
theorem setsAll_of_loads? {xs : List Symbol} {is : List Instruction} (h : loads? xs = some is) :
    setsAll is = [] := by
  induction xs generalizing is with
  | nil => cases h; rfl
  | cons x rest ih =>
    rw [loads?] at h
    split at h
    · next hx hrest =>
      cases h
      rw [Instruction.setsAll_cons_of_none (sets?_of_load? hx), ih hrest]
    · cases h

end Symbol

theorem sets?_unaryInstruction (op : UnaryOp) : (Compile.unaryInstruction op).sets? = none := by
  cases op <;> rfl

theorem sets?_binaryInstruction (op : BinaryOp) : (Compile.binaryInstruction op).sets? = none := by
  cases op <;> rfl

/-- A constant is loaded, which binds and sets nothing. -/
theorem Sets.of_intern {c c' : Setting} {v : Value} {index : UInt16}
    (h : c.intern v = some (index, c')) : Sets c [.constant index] c' := by
  have hsymbols := Setting.symbols_of_intern h
  exact .of_eq (by rw [hsymbols]) (by rw [hsymbols]) rfl

/-- **Compiled code sets the variables that its bindings have been given.** -/
theorem Writes.sets {c c' : Setting} {start : Nat} {p : Phrase} {is : List Instruction}
    (h : Writes c start p is c') : Sets c is c' := by
  induction h with
  | ident hresolve hload =>
    obtain ⟨hinner, houter⟩ := SymbolTable.definitions_resolve hresolve
    exact .of_eq hinner houter (Instruction.setsAll_cons_of_none (Symbol.sets?_of_load? hload) [])
  | number _ hintern | string hintern => exact .of_intern hintern
  | @boolean _ _ b => exact .refl _ (by cases b <;> rfl)
  | exprsNil | pairsNil | branchNil | bodyNil | stmtsNil => exact .refl _ rfl
  | unary _ ih => exact ih.concat (sets?_unaryInstruction _)
  | array _ _ ih | map _ _ ih | bodyExpr _ ih | bodyRet _ _ ih | stmtExpr _ ih | stmtRet _ _ ih =>
    exact ih.concat rfl
  | branchExpr _ ih => exact ih
  | stmtBind _ hstore ih =>
    refine ih.trans ⟨rfl, Nat.le_succ _, ?_⟩
    simp [setsAll, SymbolTable.sets?_store hstore, SymbolTable.define, Scope.bind]
  | less _ _ ih₁ ih₂ | call _ _ _ ih₁ ih₂ | index _ _ ih₁ ih₂ => exact ih₁.trans (ih₂.concat rfl)
  | binary _ _ _ ih₁ ih₂ => exact ih₁.trans (ih₂.concat (sets?_binaryInstruction _))
  | exprsCons _ _ ih₁ ih₂ | branchCons _ _ _ ih₁ ih₂ | bodyCons _ _ _ ih₁ ih₂
  | stmtsCons _ _ ih₁ ih₂ => exact ih₁.trans ih₂
  | cond _ _ _ _ _ _ _ ih₁ ih₂ ih₃ => exact ih₁.trans (.cons rfl (ih₂.trans (.cons rfl ih₃)))
  | pairsCons _ _ _ ih₁ ih₂ ih₃ => exact ih₁.trans (ih₂.trans ih₃)
  | function _ _ hleave _ hloads _ ih =>
    -- The variables of the function itself are set in the code of its body, which is elsewhere.
    have houter := ih.outer
    rw [SymbolTable.outer_of_leave? hleave, SymbolTable.outer_enterFunction] at houter
    obtain ⟨hinner, hrest⟩ := List.cons.inj houter
    refine .of_eq hinner hrest ?_
    rw [Instruction.setsAll_append, Symbol.setsAll_of_loads? hloads]
    rfl

/-! ## Functions and the top level -/

namespace Sets

variable {c c' : Setting} {is : List Instruction} {x : Variable}

/-- The variables that code sets are those with a number that was given
meanwhile. -/
theorem mem_iff (h : Sets c is c') : x ∈ setsAll is ↔
    ∃ n, c.symbols.inner.definitions ≤ n ∧ n < c'.symbols.inner.definitions ∧
      x = c.symbols.numbered n := by
  rw [h.sets, List.mem_map]
  refine exists_congr fun n => ?_
  rw [List.mem_range'_1, Nat.add_sub_cancel' h.definitions, and_assoc, eq_comm (a := x)]

/-- **Variables are set in the order of their numbers.** -/
theorem split (h : Sets c is c') {n : Nat} (hle : c.symbols.inner.definitions ≤ n)
    (hlt : n < c'.symbols.inner.definitions) :
    ∃ front back, setsAll is = front ++ c.symbols.numbered n :: back ∧
      ∀ k, c.symbols.inner.definitions ≤ k → k < n → c.symbols.numbered k ∈ front := by
  obtain ⟨a, rfl⟩ := Nat.exists_eq_add_of_le hle
  obtain ⟨b, hb⟩ := Nat.exists_eq_add_of_lt hlt
  refine ⟨(List.range' c.symbols.inner.definitions a).map c.symbols.numbered,
    (List.range' (c.symbols.inner.definitions + a + 1) b).map c.symbols.numbered, ?_,
    fun k hk hkn => List.mem_map_of_mem (List.mem_range'_1.2 ⟨hk, hkn⟩)⟩
  have hcount : c'.symbols.inner.definitions - c.symbols.inner.definitions = a + (b + 1) := by omega
  rw [h.sets, hcount, ← List.range'_append_1, List.range'_succ, List.map_append, List.map_cons]

/-- **No variable is set in two places.** -/
theorem nodup (h : Sets c is c') : (setsAll is).Nodup := by
  rw [h.sets]
  exact List.Nodup.map (fun _ _ => SymbolTable.numbered_injective) List.nodup_range'

end Sets

/-- **A routine that sets only variables of its own**, each in one place, and no
parameters. -/
structure Routine.Tidy (body : Routine) : Prop where
  /-- The parameters are among the variables. -/
  params_le : body.params ≤ body.locals
  /-- The variables that the code sets. -/
  sets : ∃ is, body.code = (encodeAll is).toArray ∧ (setsAll is).Nodup ∧
    ∀ x ∈ setsAll is, ∃ n, body.params ≤ n ∧ n < body.locals ∧ x = .frame n

/-- **A routine that the compiler has made is tidy.** Its parameters have the
first numbers, so its code sets none of them. -/
theorem Routine.Emitted.tidy {body : Routine} (h : body.Emitted) : body.Tidy := by
  cases h with
  | @intro t constants name params block is c identity hw =>
    have hsets := hw.sets
    have hparams : (t.enterFunction name params).inner.definitions = params.length :=
      (congrArg Names.sites (SymbolTable.names_enterFunction t name params)).trans
        (Names.sites_ofFunction name params)
    refine ⟨hparams ▸ hsets.definitions, is, rfl, hsets.nodup, fun x hx => ?_⟩
    obtain ⟨n, hle, hlt, rfl⟩ := hsets.mem_iff.1 hx
    refine ⟨n, hparams ▸ hle, hlt, ?_⟩
    rw [SymbolTable.numbered, SymbolTable.isGlobal, SymbolTable.outer_enterFunction]
    rfl

/-- **The top level sets only globals**, each in one place, and none that was
there before. -/
theorem Writes.sets_top {c c' : Setting} {start : Nat} {p : Phrase} {is : List Instruction}
    (h : Writes c start p is c') (hc : c.AtTop) : (setsAll is).Nodup ∧
      ∀ x ∈ setsAll is, ∃ n, c.symbols.inner.definitions ≤ n ∧ x = .global n := by
  refine ⟨h.sets.nodup, fun x hx => ?_⟩
  obtain ⟨n, hle, -, rfl⟩ := h.sets.mem_iff.1 hx
  refine ⟨n, hle, ?_⟩
  rw [SymbolTable.numbered, SymbolTable.isGlobal, hc.outer]
  rfl

/-- The top level never makes a value of itself. -/
theorem Writes.currentClosure_notMem {c c' : Setting} {start : Nat} {p : Phrase}
    {is : List Instruction} (h : Writes c start p is c') (hc : c.AtTop) : .currentClosure ∉ is := by
  -- Code that can be moved has no instruction that needs a closure to run it.
  obtain ⟨is', -, hmoved⟩ := h.relocate (d := 0) rfl hc
  clear h
  induction hmoved with
  | nil => exact List.not_mem_nil
  | cons hi _ ih =>
    rw [List.mem_cons, not_or]
    refine ⟨?_, ih⟩
    rintro rfl
    cases hi with
    | same hfixed => cases hfixed

end StackScript
