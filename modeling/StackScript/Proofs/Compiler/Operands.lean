import StackScript.Proofs.Code.Operands
import StackScript.Proofs.Compiler.TopLevel
import StackScript.Proofs.Value.Renaming

/-!
# What the operands of compiled code refer to

The code of functions outlives the program that they were compiled from, and it
refers to constants by their places in a pool that goes on growing. This is
sound because a place, once taken, is never given to another constant: what an
instruction referred to when it was written is what it refers to ever after
(`Instruction.Refers.mono`).

Main statements: every instruction that the compiler writes refers to a constant
of the right kind, or to a global that has been counted (`Writes.refers`), and
so does the code of every routine in the pool, in which no literal stands twice
(`Writes.pool`). Only the code of the top level sets globals.
-/

namespace StackScript

open Instruction (encodeAll sizeAll)

/-! ## Instructions -/

namespace Instruction

/-- **A global that is set is one of a table**, which is the table of the top
level. -/
def SetsIn (t : SymbolTable) : Instruction → Prop
  | setGlobal n => t.outer = [] ∧ n.toNat < t.inner.definitions
  | _ => True

/-- **What the operands of an instruction refer to** is there in a setting. -/
structure Refers (c : Setting) (i : Instruction) : Prop where
  /-- Constants. -/
  linked : i.LinkedTo c.constants
  /-- Globals. -/
  sets : i.SetsIn c.symbols

/-- **What an instruction refers to stays there** while more is compiled. -/
theorem Refers.mono {c c' : Setting} {ns : Names} {i : Instruction} (h : i.Refers c)
    (hc : c.Extends ns c') : i.Refers c' := by
  refine ⟨h.linked.mono hc.constants, ?_⟩
  have hsets := h.sets
  cases i with
  | setGlobal =>
    have houter := hc.outer
    rw [hsets.1] at houter
    exact ⟨List.forall₂_nil_left_iff.1 houter, Nat.lt_of_lt_of_le hsets.2 hc.definitions⟩
  | _ => trivial

/-- Whether an instruction has no operand that names a constant or sets a
global. -/
def isPlain : Instruction → Bool
  | constant _ | makeClosure .. | setGlobal _ => false
  | _ => true

/-- An instruction that names nothing has nothing to refer to. -/
theorem refers_of_isPlain {i : Instruction} (c : Setting) (h : i.isPlain = true) : i.Refers c := by
  cases i with
  | constant | makeClosure | setGlobal => cases h
  | _ => exact ⟨trivial, trivial⟩

/-- A literal that has just been put into the pool is what its instruction
refers to. -/
theorem refers_constant {c c' : Setting} {v : Value} {n : UInt16}
    (h : c.intern v = some (n, c')) (hv : v.isLiteral = true) : (constant n).Refers c' :=
  ⟨⟨v, Setting.getElem?_intern h, hv⟩, trivial⟩

end Instruction

namespace Symbol

variable {x : Symbol} {i : Instruction}

/-- Variables are loaded by number, and reading a global that does not exist yet
does no harm. -/
theorem isPlain_of_load? (h : x.load? = some i) : i.isPlain = true := by
  obtain ⟨name, storage, index⟩ := x
  cases storage with
  | itself => cases h; rfl
  | global | frame | builtin | captured => obtain ⟨-, ⟨⟩⟩ := Option.ite_none_right_eq_some.1 h; rfl

/-- So are the captures of a function. -/
theorem isPlain_of_loads? {xs : List Symbol} {is : List Instruction} (h : loads? xs = some is) :
    ∀ i ∈ is, i.isPlain = true := by
  induction xs generalizing is with
  | nil => cases h; exact nofun
  | cons x rest ih =>
    rw [loads?] at h
    split at h
    · next hx hrest =>
      cases h
      exact List.forall_mem_cons.2 ⟨isPlain_of_load? hx, ih hrest⟩
    · cases h

end Symbol

namespace Compile

theorem isPlain_unaryInstruction (op : UnaryOp) : (unaryInstruction op).isPlain = true := by
  cases op <;> rfl

theorem isPlain_binaryInstruction (op : BinaryOp) : (binaryInstruction op).isPlain = true := by
  cases op <;> rfl

end Compile

/-- A binding sets the variable that it has just been given. -/
theorem SymbolTable.refers_store {t : SymbolTable} {name : String} {i : Instruction}
    (constants : Array Value) (h : (t.define name).1.store? = some i) :
    i.Refers ⟨(t.define name).2, constants⟩ := by
  obtain ⟨inner, outer⟩ := t
  cases outer with
  | nil =>
    obtain ⟨hlt, ⟨⟩⟩ := Option.ite_none_right_eq_some.1 h
    refine ⟨trivial, rfl, ?_⟩
    rw [UInt16.toNat_ofNat_of_lt' hlt]
    exact Nat.lt_succ_self _
  | cons next rest =>
    obtain ⟨-, ⟨⟩⟩ := Option.ite_none_right_eq_some.1 h
    exact Instruction.refers_of_isPlain _ rfl

section

variable {c c₁ c₂ : Setting} {ns : Names} {is js : List Instruction} {i : Instruction}

/-- Code that follows other code. -/
theorem refers_append (his : ∀ i ∈ is, i.Refers c₁) (hc : c₁.Extends ns c₂)
    (hjs : ∀ i ∈ js, i.Refers c₂) : ∀ i ∈ is ++ js, i.Refers c₂ :=
  List.forall_mem_append.2 ⟨fun i hi => (his i hi).mono hc, hjs⟩

theorem refers_singleton (hi : i.isPlain = true) : ∀ j ∈ [i], j.Refers c :=
  List.forall_mem_singleton.2 (Instruction.refers_of_isPlain c hi)

/-- An instruction without such operands follows code. -/
theorem refers_concat (his : ∀ j ∈ is, j.Refers c) (hi : i.isPlain = true) :
    ∀ j ∈ is ++ [i], j.Refers c :=
  List.forall_mem_append.2 ⟨his, refers_singleton hi⟩

end

/-- **All that compiled code refers to is there** when it has been compiled. -/
theorem Writes.refers {c c' : Setting} {start : Nat} {p : Phrase} {is : List Instruction}
    (hw : Writes c start p is c') (hc : c.symbols.Coherent) : ∀ i ∈ is, i.Refers c' := by
  induction hw with
  | ident _ hload => exact refers_singleton (Symbol.isPlain_of_load? hload)
  | number _ hintern | string hintern =>
    exact List.forall_mem_singleton.2 (Instruction.refers_constant hintern rfl)
  | @boolean c _ b => cases b <;> exact refers_singleton rfl
  | exprsNil | pairsNil | stmtsNil => exact nofun
  | branchNil | bodyNil => exact refers_singleton rfl
  | unary _ ih => exact refers_concat (ih hc) (Compile.isPlain_unaryInstruction _)
  | array _ _ ih | map _ _ ih | bodyExpr _ ih | bodyRet _ _ ih | stmtExpr _ ih | stmtRet _ _ ih =>
    exact refers_concat (ih hc) rfl
  | branchExpr _ ih => exact ih hc
  | stmtBind hvalue hstore ih =>
    have hcoherent := (hvalue.extends hc).coherent
    exact refers_append (ih hc) (.define hcoherent _)
      (List.forall_mem_singleton.2 (SymbolTable.refers_store _ hstore))
  | less h₁ h₂ ih₁ ih₂ | call h₁ h₂ _ ih₁ ih₂ | index h₁ h₂ ih₁ ih₂ =>
    have hc₁ := (h₁.extends hc).coherent
    exact refers_append (ih₁ hc) (h₂.extends hc₁) (refers_concat (ih₂ hc₁) rfl)
  | binary _ h₁ h₂ ih₁ ih₂ =>
    have hc₁ := (h₁.extends hc).coherent
    exact refers_append (ih₁ hc) (h₂.extends hc₁)
      (refers_concat (ih₂ hc₁) (Compile.isPlain_binaryInstruction _))
  | exprsCons h₁ h₂ ih₁ ih₂ | branchCons _ h₁ h₂ ih₁ ih₂ | bodyCons _ h₁ h₂ ih₁ ih₂
  | stmtsCons h₁ h₂ ih₁ ih₂ =>
    have hc₁ := (h₁.extends hc).coherent
    exact refers_append (ih₁ hc) (h₂.extends hc₁) (ih₂ hc₁)
  | pairsCons h₁ h₂ h₃ ih₁ ih₂ ih₃ =>
    have hc₁ := (h₁.extends hc).coherent
    have hc₂ := (h₂.extends hc₁).coherent
    exact refers_append (ih₁ hc) ((h₂.extends hc₁).trans (h₃.extends hc₂))
      (refers_append (ih₂ hc₁) (h₃.extends hc₂) (ih₃ hc₂))
  | cond h₁ h₂ h₃ _ _ _ _ ih₁ ih₂ ih₃ =>
    have hc₁ := (h₁.extends hc).coherent
    have hc₂ := (h₂.extends hc₁).coherent
    refine refers_append (ih₁ hc) ((h₂.extends hc₁).trans (h₃.extends hc₂)) ?_
    refine List.forall_mem_cons.2 ⟨Instruction.refers_of_isPlain _ rfl, ?_⟩
    refine refers_append (ih₂ hc₁) (h₃.extends hc₂) ?_
    exact List.forall_mem_cons.2 ⟨Instruction.refers_of_isPlain _ rfl, ih₃ hc₂⟩
  | function _ _ _ _ hloads hroom =>
    -- The closure is built of the routine that has just been added at the end of the pool.
    refine List.forall_mem_append.2 ⟨fun i hi => ?_, List.forall_mem_singleton.2 ⟨?_, trivial⟩⟩
    · exact Instruction.refers_of_isPlain _ (Symbol.isPlain_of_loads? hloads i hi)
    · rw [Instruction.LinkedTo, UInt16.toNat_ofNat_of_lt' hroom]
      exact ⟨_, Array.getElem?_push_size⟩

/-- **The code of a function sets no globals.** -/
theorem Writes.not_setGlobal {c c' : Setting} {start : Nat} {p : Phrase} {is : List Instruction}
    (hw : Writes c start p is c') (hc : c.symbols.Coherent) (hdeep : c.symbols.outer ≠ []) :
    ∀ n, .setGlobal n ∉ is := by
  intro n hi
  obtain ⟨houter, -⟩ := (hw.refers hc _ hi).sets
  have hdepth := hw.depth
  rw [houter] at hdepth
  exact hdeep (List.eq_nil_of_length_eq_zero hdepth.symm)

section

variable {t : SymbolTable} {constants : Array Value} {name : Option String} {params : List Ident}
  {block : List Stmt} {is : List Instruction} {c : Setting}

/-- The code of a function's body is linked to the pool as it is after the
body. -/
theorem Writes.linked_body
    (hw : Writes ⟨t.enterFunction name params, constants⟩ 0 (.body block) is c) (ht : t.Coherent) :
    Code.Linked c.constants (encodeAll is).toArray :=
  Code.linked_encodeAll fun i hi => (hw.refers (ht.enterFunction name params) i hi).linked

/-- The code of a function's body sets no globals. -/
theorem Writes.setsBelow_body
    (hw : Writes ⟨t.enterFunction name params, constants⟩ 0 (.body block) is c) (ht : t.Coherent) :
    Code.SetsBelow 0 (encodeAll is).toArray := by
  refine Code.setsBelow_encodeAll fun n hn => (hw.not_setGlobal (ht.enterFunction _ _) ?_ n hn).elim
  show (t.enterFunction name params).outer ≠ []
  rw [t.outer_enterFunction]
  exact List.cons_ne_nil _ _

end

/-! ## The pool -/

/-- **A pool of constants that code can rely on.** -/
structure PoolSound (pool : Array Value) : Prop where
  /-- Every constant has a place that an operand can name. -/
  size : pool.size ≤ 65536
  /-- There are only literals and routines. -/
  constants : ∀ v ∈ pool.toList, v.isConstant = true
  /-- No literal stands in two places. -/
  distinct : ∀ (i j : Nat) v, pool[i]? = some v → pool[j]? = some v → v.isLiteral = true → i = j
  /-- The code of routines refers to the same pool. -/
  linked : ∀ body : Routine, .routine body ∈ pool.toList → body.code.Linked pool
  /-- Functions set no globals. -/
  setsNone : ∀ body : Routine, .routine body ∈ pool.toList → body.code.SetsBelow 0

namespace PoolSound

theorem empty : PoolSound #[] :=
  ⟨Nat.zero_le _, nofun, fun _ _ _ h => (by simp at h), nofun, nofun⟩

variable {pool : Array Value} {v : Value}

theorem isPrefix_push (pool : Array Value) (v : Value) : pool.toList <+: (pool.push v).toList := by
  rw [Array.toList_push]
  exact List.prefix_append _ _

/-- **A constant joins the pool**: a literal that is not there yet, or a routine
whose code refers to the constants that are there. -/
theorem push (h : PoolSound pool) (hroom : pool.size < 65536) (hv : v.isConstant = true)
    (hnew : v.isLiteral = true → ∀ w ∈ pool.toList, w ≠ v)
    (hcode : ∀ body, v = .routine body → body.code.Linked pool ∧ body.code.SetsBelow 0) :
    PoolSound (pool.push v) := by
  have hprefix := isPrefix_push pool v
  have hroutine : ∀ body : Routine, .routine body ∈ (pool.push v).toList →
      .routine body ∈ pool.toList ∨ v = .routine body := by
    intro body hbody
    rw [Array.toList_push] at hbody
    exact (List.mem_append.1 hbody).imp_right fun h => (List.mem_singleton.1 h).symm
  refine ⟨?_, forall_mem_push h.constants hv, ?_, fun body hbody => ?_, fun body hbody => ?_⟩
  · rw [Array.size_push]
    exact hroom
  · -- The new place is the last one, and what stands there stands nowhere else.
    have hold : ∀ (i : Nat) w, (pool.push v)[i]? = some w → w.isLiteral = true →
        pool[i]? = some w ∧ w ≠ v ∨ i = pool.size ∧ w = v := by
      intro i w hi hliteral
      rw [Array.getElem?_push] at hi
      split at hi
      · next hsize =>
        cases hi
        exact .inr ⟨hsize, rfl⟩
      · refine .inl ⟨hi, ?_⟩
        rintro rfl
        exact hnew hliteral w (Array.mem_toList_iff.2 (Array.mem_of_getElem? hi)) rfl
    intro i j w hi hj hliteral
    rcases hold i w hi hliteral with ⟨hi, hne⟩ | ⟨rfl, rfl⟩
    · rcases hold j w hj hliteral with ⟨hj, -⟩ | ⟨-, heq⟩
      · exact h.distinct i j w hi hj hliteral
      · exact (hne heq).elim
    · rcases hold j w hj hliteral with ⟨-, hne⟩ | ⟨hsize, -⟩
      · exact (hne rfl).elim
      · exact hsize.symm
  · rcases hroutine body hbody with hbody | hbody
    · exact (h.linked body hbody).mono hprefix
    · exact (hcode body hbody).1.mono hprefix
  · rcases hroutine body hbody with hbody | hbody
    · exact h.setsNone body hbody
    · exact (hcode body hbody).2

/-- A literal is where it was, or it joins the pool. -/
theorem intern {c c' : Setting} {index : UInt16} (h : PoolSound c.constants)
    (hintern : c.intern v = some (index, c')) (hv : v.isLiteral = true) :
    PoolSound c'.constants := by
  unfold Setting.intern at hintern
  split at hintern
  · obtain ⟨-, ⟨⟩⟩ := Option.ite_none_right_eq_some.1 hintern
    exact h
  · next hfind =>
    obtain ⟨hroom, ⟨⟩⟩ := Option.ite_none_right_eq_some.1 hintern
    rw [Array.findIdx?_eq_none_iff] at hfind
    refine h.push hroom ?_ (fun _ w hw heq => ?_) ?_
    · cases v with
      | number | string => rfl
      | _ => cases hv
    · have hsame := hfind w (Array.mem_toList_iff.1 hw)
      subst heq
      cases w with
      | number n => exact Bool.noConfusion (hsame.symm.trans (BEq.refl n))
      | string s => exact Bool.noConfusion (hsame.symm.trans (BEq.refl s))
      | _ => cases hv
    · rintro body rfl
      cases hv

end PoolSound

/-- **Compiling keeps the pool sound.** -/
theorem Writes.pool {c c' : Setting} {start : Nat} {p : Phrase} {is : List Instruction}
    (hw : Writes c start p is c') (hc : c.symbols.Coherent) (h : PoolSound c.constants) :
    PoolSound c'.constants := by
  induction hw with
  | ident | boolean | exprsNil | pairsNil | branchNil | bodyNil | stmtsNil => exact h
  | number _ hintern | string hintern => exact h.intern hintern rfl
  | unary _ ih | array _ _ ih | map _ _ ih | branchExpr _ ih | bodyExpr _ ih | bodyRet _ _ ih
  | stmtExpr _ ih | stmtRet _ _ ih | stmtBind _ _ ih => exact ih hc h
  | less h₁ _ ih₁ ih₂ | binary _ h₁ _ ih₁ ih₂ | call h₁ _ _ ih₁ ih₂ | index h₁ _ ih₁ ih₂
  | exprsCons h₁ _ ih₁ ih₂ | branchCons _ h₁ _ ih₁ ih₂ | bodyCons _ h₁ _ ih₁ ih₂
  | stmtsCons h₁ _ ih₁ ih₂ => exact ih₂ (h₁.extends hc).coherent (ih₁ hc h)
  | cond h₁ h₂ _ _ _ _ _ ih₁ ih₂ ih₃ | pairsCons h₁ h₂ _ ih₁ ih₂ ih₃ =>
    have hc₁ := (h₁.extends hc).coherent
    exact ih₃ (h₂.extends hc₁).coherent (ih₂ hc₁ (ih₁ hc h))
  | @function _ _ _ name params _ _ _ _ _ _ hbody _ _ _ hroom ih =>
    refine (ih (hc.enterFunction name params) h).push hroom rfl nofun ?_
    rintro _ ⟨⟩
    exact ⟨hbody.linked_body hc, hbody.setsBelow_body hc⟩

end StackScript
