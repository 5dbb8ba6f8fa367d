import StackScript.Proofs.Compiler.Adequacy
import StackScript.Proofs.Compiler.Balance
import StackScript.Syntax.Parser

/-!
# What the compiler emits

The pool of constants holds literals and routines, and the code of each routine
is laid out as the body of a function (`Routine.Emitted`). What is true of all
of these is true of all constants, in whatever order programs have added them
(`Writes.constants_all`).

Main statement: the code of the top level and of every routine in the pool is
well formed, and the code of a routine ends in a return. No jump is left without
its target, and none has a target that does not fit its operand.
-/

namespace StackScript

open Instruction (encodeAll sizeAll)

/-- **A routine that was compiled from some function.** -/
inductive Routine.Emitted : Routine → Prop where
  | intro {t : SymbolTable} {constants : Array Value} {name : Option String} {params : List Ident}
      {block : List Stmt} {is : List Instruction} {c : Setting} {identity : Nat} :
      Writes ⟨t.enterFunction name params, constants⟩ 0 (.body block) is c →
      Emitted ⟨identity, (encodeAll is).toArray, c.symbols.inner.definitions, params.length⟩

/-! ## The pool of constants -/

/-- **A condition that all constants meet**: literals do, and compiled
routines. -/
structure Constants (P : Value → Prop) : Prop where
  /-- Numbers meet it. -/
  number : ∀ n, P (.number n)
  /-- Strings meet it. -/
  string : ∀ s, P (.string s)
  /-- Compiled routines meet it. -/
  routine : ∀ body : Routine, body.Emitted → P (.routine body)

section

variable {P : Value → Prop} {c c' : Setting} {start : Nat} {p : Phrase} {is : List Instruction}

theorem forall_mem_push {xs : Array Value} {v : Value} (hxs : ∀ x ∈ xs.toList, P x) (hv : P v) :
    ∀ x ∈ (xs.push v).toList, P x := by
  intro x hx
  rw [Array.toList_push] at hx
  rcases List.mem_append.1 hx with hx | hx
  · exact hxs x hx
  · exact List.mem_singleton.1 hx ▸ hv

/-- A literal that is put into the pool, or is found there, keeps a property
that literals have. -/
theorem Setting.constants_all_of_intern {v : Value} {index : UInt16}
    (h : c.intern v = some (index, c')) (hv : P v) (hc : ∀ x ∈ c.constants.toList, P x) :
    ∀ x ∈ c'.constants.toList, P x := by
  unfold Setting.intern at h
  split at h
  · obtain ⟨-, ⟨⟩⟩ := Option.ite_none_right_eq_some.1 h
    exact hc
  · obtain ⟨-, ⟨⟩⟩ := Option.ite_none_right_eq_some.1 h
    exact forall_mem_push hc hv

/-- **What compiling adds to the pool are constants.** -/
theorem Writes.constants_all (hP : Constants P) (hw : Writes c start p is c')
    (hc : ∀ v ∈ c.constants.toList, P v) : ∀ v ∈ c'.constants.toList, P v := by
  induction hw with
  | ident | boolean | exprsNil | pairsNil | branchNil | bodyNil | stmtsNil => exact hc
  | number _ hintern => exact Setting.constants_all_of_intern hintern (hP.number _) hc
  | string hintern => exact Setting.constants_all_of_intern hintern (hP.string _) hc
  | unary _ ih | array _ _ ih | map _ _ ih | branchExpr _ ih | bodyExpr _ ih | bodyRet _ _ ih
  | stmtExpr _ ih | stmtRet _ _ ih | stmtBind _ _ ih => exact ih hc
  | less _ _ ih₁ ih₂ | binary _ _ _ ih₁ ih₂ | call _ _ _ ih₁ ih₂ | index _ _ ih₁ ih₂
  | exprsCons _ _ ih₁ ih₂ | branchCons _ _ _ ih₁ ih₂ | bodyCons _ _ _ ih₁ ih₂
  | stmtsCons _ _ ih₁ ih₂ => exact ih₂ (ih₁ hc)
  | cond _ _ _ _ _ _ _ ih₁ ih₂ ih₃ | pairsCons _ _ _ ih₁ ih₂ ih₃ => exact ih₃ (ih₂ (ih₁ hc))
  | function _ hbody _ _ _ _ ih => exact forall_mem_push (ih hc) (hP.routine _ (.intro hbody))

/-! ## Bodies -/

/-- The code of a body ends in a return. -/
theorem Writes.endsInReturn {block : List Stmt} (hw : Writes c start (.body block) is c') :
    Code.EndsInReturn (encodeAll is).toArray := by
  obtain ⟨front, i, rfl, hi⟩ :
      ∃ front i, is = front ++ [i] ∧ (i = .returnValue ∨ i = .returnNull) := by
    induction block generalizing c start is with
    | nil => cases hw; exact ⟨[], _, rfl, .inr rfl⟩
    | cons x rest ih =>
      cases hw with
      | bodyExpr | bodyRet => exact ⟨_, _, rfl, .inl rfl⟩
      | @bodyCons _ _ _ _ _ _ is _ _ _ hrest =>
        obtain ⟨front, i, rfl, hi⟩ := ih hrest
        exact ⟨is ++ front, i, (List.append_assoc ..).symm, hi⟩
  exact Code.endsInReturn_append front hi

/-- A routine that the compiler has made is well-formed and ends in a return,
which is the last thing that it writes into a body. -/
theorem Routine.Emitted.wellFormed {body : Routine} (h : body.Emitted) :
    body.code.WellFormed ∧ body.code.EndsInReturn := by
  cases h with
  | intro hw => exact ⟨Code.wellFormed_of_steady (hw.balanced 0).1, hw.endsInReturn⟩

end

/-- A result that is one, with the state beside it. -/
theorem eq_ok_of_isOk {ε α σ : Type} [Inhabited α] {r : Except ε α × σ} (h : r.1.isOk = true) :
    r = (.ok (r.1.toOption.getD default), r.2) := by
  obtain ⟨_ | _, _⟩ := r
  · cases h
  · rfl

namespace Compiler

variable {c : Compiler}

/-- **The compilers that compiled programs lead to.** The code of programs adds
up; a compiler may also go on with no code, from the names and the constants so
far. -/
inductive Reached : Compiler → Prop where
  | initial : Reached initial
  | compile {c c' : Compiler} {program : List Stmt} : Reached c →
      c.compile program = (.ok (), c') → Reached c'
  | restate {c : Compiler} : Reached c → Reached (withState c.symbols c.constants)

/-- No function is open between two programs. -/
theorem Reached.level (h : Reached c) : c.Level ∧ c.symbols.outer = [] := by
  induction h with
  | initial => exact ⟨level_withState rfl, rfl⟩
  | compile _ hcompile ih =>
    obtain ⟨is, hw, hwrote⟩ := ih.1.laid hcompile
    have hdepth := hw.depth
    rw [show (Compiler.setting _).symbols.outer = [] from ih.2] at hdepth
    exact ⟨ih.1.of_wrote hwrote hw, List.eq_nil_of_length_eq_zero hdepth⟩
  | restate _ ih => exact ⟨level_withState ih.2, ih.2⟩

/-- **What holds of literals and of routines that are laid out holds of the
whole pool**, of whichever program its constants are. -/
theorem Reached.constants_all {P : Value → Prop} (hP : Constants P) (h : Reached c) :
    ∀ v ∈ c.constants.toList, P v := by
  induction h with
  | initial => exact nofun
  | compile h hcompile ih =>
    obtain ⟨is, hw, -⟩ := h.level.1.laid hcompile
    exact hw.constants_all hP ih
  | restate _ ih => exact ih

/-- Every routine in the pool was compiled from some function. -/
theorem Reached.emitted (h : Reached c) {body : Routine}
    (hbody : .routine body ∈ c.constants.toList) :
    body.Emitted :=
  h.constants_all (P := fun v => ∀ body, v = .routine body → body.Emitted)
    ⟨nofun, nofun, fun body hbody _ heq => by cases heq; exact hbody⟩ _ hbody body rfl

/-- The code of programs one after another is balanced. -/
theorem Reached.balanced (h : Reached c) :
    ∃ is, c.fragment.code = (encodeAll is).toArray ∧ Balanced true 0 0 is := by
  induction h with
  | initial | restate => exact ⟨[], rfl, .nil⟩
  | compile h hcompile ih =>
    obtain ⟨is, hcode, hbalanced⟩ := ih
    obtain ⟨js, hw, hwrote⟩ := h.level.1.laid hcompile
    -- The layout begins where the code so far ends, so that its jumps need not be moved.
    rw [hcode, Code.size_encodeAll, ← Nat.zero_add (sizeAll is)] at hw
    refine ⟨is ++ js, Array.ext' ?_, hbalanced.append hw.balanced fun _ => .inl rfl⟩
    rw [hwrote.code, hcode, Instruction.encodeAll_append]

/-- **Emitted code is well formed.** When programs have been compiled, the code
of the top level and of every routine in the pool can be read to its end, and
all its jumps lead forward to instructions of the same code; and the code of
every routine ends in a return. -/
theorem emitted_code_is_well_formed (h : Reached c) :
    c.bytecode.code.WellFormed ∧
      ∀ body : Routine, .routine body ∈ c.bytecode.constants.toList →
        body.code.WellFormed ∧ body.code.EndsInReturn := by
  obtain ⟨is, hcode, hbalanced⟩ := h.balanced
  refine ⟨?_, fun body hbody => (h.emitted hbody).wellFormed⟩
  rw [bytecode, hcode]
  exact Code.wellFormed_of_steady (hbalanced 0).1

/-- Three programs in a row, the last of them compiled after the code of the
second. There are conditionals as tests, branches that end in a binding, and a
return in the middle. -/
theorem emitted_code_is_well_formed_nested :
    let first :=
      (parse "let f = fn(x) { if (x) { if (x > 1) { return 2; 3 } else { let y = 1; } } };"
      ).toOption.getD []
    let second :=
      (parse "let g = fn(n) { f(if (n) { f(n) }) }; if (g(1)) { f(1) }").toOption.getD []
    let third := (parse "if (if (true) { f }) { 1 } else { let h = g; }").toOption.getD []
    let c₁ := (initial.compile first).2
    let c₂ := ((withState c₁.symbols c₁.constants).compile second).2
    let c₃ := (c₂.compile third).2
    (c₃.bytecode.constants.toList.filter (·.type = .function)).length = 2 ∧
      (c₃.bytecode.code.decode.instructions.filter (·.2.target?.isSome)).size = 6 ∧
      c₃.bytecode.code.WellFormed ∧
      ∀ body : Routine, .routine body ∈ c₃.bytecode.constants.toList →
        body.code.WellFormed ∧ body.code.EndsInReturn := by
  intro first second third c₁ c₂ c₃
  have h₁ : Reached c₁ := .compile .initial (eq_ok_of_isOk (by decide +kernel))
  have h₂ : Reached c₂ := .compile h₁.restate (eq_ok_of_isOk (by decide +kernel))
  have h₃ : Reached c₃ := .compile h₂ (eq_ok_of_isOk (by decide +kernel))
  exact ⟨by decide +kernel, by decide +kernel, emitted_code_is_well_formed h₃⟩

end Compiler

end StackScript
