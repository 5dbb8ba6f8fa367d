import StackScript.Proofs.Compiler.Assignments
import StackScript.Proofs.Compiler.Completeness
import StackScript.Proofs.Compiler.Demand
import StackScript.Proofs.Compiler.TopLevel

/-!
# Where the compiler comes by

On its way through a program the compiler comes by every phrase of it once, with
the names and the constants that the phrases before have left, and at the offset
at which they have left the code. A phrase is compiled from its **parts**
(`Phrase.parts`), one after the other; `ComesBy` follows the compiler from a
phrase to its parts and to theirs. The body of a function is no part of the
function: its code is elsewhere, and `BodyOf` leads from a program to the bodies
of the functions in it.

There is one way through a phrase only, for a phrase has one layout only
(`Writes.unique`). So the code of a phrase that the compiler comes by stands in
the code of the whole, and begins at the offset at which the compiler has come
by it (`ComesBy.written`).
-/

namespace StackScript

open Instruction (encodeAll sizeAll)

/-! ## One layout -/

/-- What a computation appends is determined by the bytes, and so is the setting
it leaves. -/
theorem Compile.Lays.unique {x : Compile Unit} {c : Compiler} {is₁ is₂ : List Instruction}
    {s₁ s₂ : Setting} (h₁ : Lays x c is₁ s₁) (h₂ : Lays x c is₂ s₂) : is₁ = is₂ ∧ s₁ = s₂ := by
  obtain ⟨c₁, hrun₁, rfl, hwrote₁⟩ := h₁
  obtain ⟨c₂, hrun₂, rfl, hwrote₂⟩ := h₂
  rw [hrun₁] at hrun₂
  cases hrun₂
  have hcode := List.append_cancel_left (hwrote₁.code.symm.trans hwrote₂.code)
  exact ⟨Instruction.eq_of_encodeAll (congrArg List.toArray hcode), rfl⟩

/-- **A phrase has one layout** from where the compiler is. -/
theorem Writes.unique {c c₁ c₂ : Setting} {start : Nat} {p : Phrase} {is₁ is₂ : List Instruction}
    (h₁ : Writes c start p is₁ c₁) (h₂ : Writes c start p is₂ c₂) : is₁ = is₂ ∧ c₁ = c₂ := by
  -- A layout is what some compiler writes, and a compiler can be put anywhere.
  let fragment : Fragment := ⟨Array.replicate start 0, none, none⟩
  let compiler : Compiler := ⟨c.constants, c.symbols, fragment, c.symbols.outer.map fun _ => .empty⟩
  have hstands : compiler.Stands c start := ⟨rfl, Array.size_replicate, List.length_map _⟩
  have hcompiles₁ := h₁.compiles hstands
  have hcompiles₂ := h₂.compiles hstands
  cases p with
  | expr | exprs | pairs | stmts => exact hcompiles₁.unique hcompiles₂
  | branch block => exact (hcompiles₁ default).unique (hcompiles₂ default)
  | stmt s =>
    obtain ⟨k₁, hrun₁, hsetting₁, hwrote₁, -⟩ := hcompiles₁
    obtain ⟨k₂, hrun₂, hsetting₂, hwrote₂, -⟩ := hcompiles₂
    exact Compile.Lays.unique ⟨k₁, hrun₁, hsetting₁, hwrote₁⟩ ⟨k₂, hrun₂, hsetting₂, hwrote₂⟩
  | body block =>
    have hunfinished : block = [] → compiler.fragment.Unfinished := fun _ => ⟨rfl, rfl⟩
    exact (hcompiles₁ hunfinished default).unique (hcompiles₂ hunfinished default)

/-! ## Parts -/

namespace Phrase

/-- **The phrases that a phrase is compiled from**, in the order of their
code. -/
def parts : Phrase → List Phrase
  | .expr (.unary _ operand _) => [.expr operand]
  | .expr (.binary .less left right _) => [.expr right, .expr left]
  | .expr (.binary _ left right _) => [.expr left, .expr right]
  | .expr (.cond test yes no _) => [.expr test, .branch yes.body, .branch (otherwise no)]
  | .expr (.call callee args _) => [.expr callee, .exprs args]
  | .expr (.array items _) => [.exprs items]
  | .expr (.index container key _) => [.expr container, .expr key]
  | .expr (.map entries _) => [.pairs entries]
  | .expr _ => []
  | .exprs [] | .pairs [] | .branch [] | .body [] | .stmts [] => []
  | .exprs (e :: rest) => [.expr e, .exprs rest]
  | .pairs ((key, value) :: rest) => [.expr key, .expr value, .pairs rest]
  | .branch [.expr e _] | .body [.expr e _] | .body [.ret e _] => [.expr e]
  | .branch (s :: rest) => [.stmt s, .branch rest]
  | .body (s :: rest) => [.stmt s, .body rest]
  | .stmts (s :: rest) => [.stmt s, .stmts rest]
  | .stmt (.expr e _) | .stmt (.ret e _) | .stmt (.bind _ e _) => [.expr e]

/-- The bytes between the parts of a phrase: there is a jump after the test of a
conditional and another one between its branches. -/
def gap : Phrase → Nat
  | .expr (.cond ..) => 3
  | _ => 0

/-- The operands of an operator are compiled from left to right, those of `<`
apart. -/
theorem parts_binary {op : BinaryOp} {left right : Expr} {span : Span} (h : op ≠ .less) :
    parts (.expr (.binary op left right span)) = [.expr left, .expr right] := by
  cases op <;> first | rfl | exact (h rfl).elim

/-- A branch is its first statement and the rest, unless the statement is the
value of the branch. -/
theorem parts_branch {s : Stmt} {rest : List Stmt} (h : rest = [] → s.isExpr = false) :
    parts (.branch (s :: rest)) = [.stmt s, .branch rest] := by
  cases rest with
  | cons => cases s <;> rfl
  | nil =>
    cases s with
    | expr => exact Bool.noConfusion (h rfl)
    | _ => rfl

/-- A body is its first statement and the rest, unless the statement is what the
function returns. -/
theorem parts_body {s : Stmt} {rest : List Stmt} (h : rest = [] → s.isBind = true) :
    parts (.body (s :: rest)) = [.stmt s, .body rest] := by
  cases rest with
  | cons => cases s <;> rfl
  | nil =>
    cases s with
    | bind => rfl
    | _ => exact Bool.noConfusion (h rfl)

end Phrase

/-- **Phrases are compiled one after the other**, with some bytes after each. -/
inductive Passes (gap : Nat) : Setting → Nat → List Phrase → Setting → Nat → Prop where
  | nil {c start} : Passes gap c start [] c start
  | cons {c c₁ c₂ start stop p rest is} :
      Writes c start p is c₁ → Passes gap c₁ (start + sizeAll is + gap) rest c₂ stop →
      Passes gap c start (p :: rest) c₂ stop

/-- **Where the compiler comes by** on its way through a phrase: with which
names and constants, at which offset, and what it has to compile there. -/
inductive ComesBy (c : Setting) (start : Nat) (p : Phrase) : Setting → Nat → Phrase → Prop where
  | here : ComesBy c start p c start p
  | part {c₁ c₂ start₁ start₂ q r front back} :
      ComesBy c start p c₁ start₁ q → q.parts = front ++ r :: back →
      Passes q.gap c₁ start₁ front c₂ start₂ → ComesBy c start p c₂ start₂ r

/-- The first part of a phrase is compiled where the phrase is. -/
theorem ComesBy.first {c c₁ : Setting} {start start₁ : Nat} {p q r : Phrase} {rest : List Phrase}
    (h : ComesBy c start p c₁ start₁ q) (hparts : q.parts = r :: rest) :
    ComesBy c start p c₁ start₁ r :=
  h.part (show q.parts = [] ++ r :: rest from hparts) .nil

/-- **The bodies that are compiled in the course of a program**: the program
itself, and those of the functions in it. -/
inductive BodyOf (c : Setting) (program : List Stmt) : Setting → Phrase → Prop where
  | top : BodyOf c program c (.stmts program)
  | function {c₁ c₂ p start name params block span} :
      BodyOf c program c₁ p →
      ComesBy c₁ 0 p c₂ start (.expr (.function name params block span)) →
      BodyOf c program { c₂ with symbols := c₂.symbols.enterFunction name params }
        (.body (Block.body block))

/-! ## Names on the way -/

/-- **Names that can be relied on**, with a slot for every global. -/
structure Setting.Reliable (c : Setting) : Prop where
  /-- The names are coherent. -/
  coherent : c.symbols.Coherent
  /-- They come about, so no name is captured twice. -/
  reachable : c.symbols.Reachable
  /-- The globals have slots. -/
  addressed : c.symbols.top.Addressed

section

variable {c c' c₁ : Setting} {start start₁ gap : Nat} {p q : Phrase} {ps : List Phrase}

/-- Names that can be relied on can still be relied on after some code. The
lemmas that follow carry this to wherever the compiler comes by. -/
theorem Writes.reliable {is : List Instruction} (hw : Writes c start p is c') (h : c.Reliable) :
    c'.Reliable :=
  ⟨(hw.extends h.coherent).coherent, hw.reachable h.reachable,
    hw.addressed h.coherent h.addressed⟩

theorem Passes.reliable (hp : Passes gap c start ps c₁ start₁) (h : c.Reliable) : c₁.Reliable := by
  induction hp with
  | nil => exact h
  | cons hw _ ih => exact ih (hw.reliable h)

theorem ComesBy.reliable (hq : ComesBy c start p c₁ start₁ q) (h : c.Reliable) : c₁.Reliable := by
  induction hq with
  | here => exact h
  | part _ _ hpasses ih => exact hpasses.reliable ih

/-- Parts are compiled in the function that the phrase stands in, or at the top
level if it stands there. -/
theorem Passes.isGlobal (hp : Passes gap c start ps c₁ start₁) :
    c₁.symbols.isGlobal = c.symbols.isGlobal := by
  induction hp with
  | nil => rfl
  | cons hw _ ih => exact ih.trans hw.sets.isGlobal

/-- On its way through a body the compiler stays in the function, or at the top
level. -/
theorem ComesBy.isGlobal (hq : ComesBy c start p c₁ start₁ q) :
    c₁.symbols.isGlobal = c.symbols.isGlobal := by
  induction hq with
  | here => rfl
  | part _ _ hpasses ih => exact hpasses.isGlobal.trans ih

theorem BodyOf.reliable {program : List Stmt} (hp : BodyOf c program c₁ p) (h : c.Reliable) :
    c₁.Reliable := by
  induction hp with
  | top => exact h
  | function _ hq ih =>
    obtain ⟨hcoherent, hreachable, haddressed⟩ := hq.reliable ih
    refine ⟨hcoherent.enterFunction _ _, hreachable.enterFunction _ _, ?_⟩
    rw [SymbolTable.top_enterFunction]
    exact haddressed

end

/-! ## Code on the way -/

/-- What is bound and captured before a phrase keeps its place in the scope
that the phrase leaves. -/
theorem Writes.widens {c c' : Setting} {start : Nat} {p : Phrase} {is : List Instruction}
    (h : Writes c start p is c') (hc : c.symbols.Coherent) :
    c.symbols.inner.Widens c'.symbols.inner :=
  ⟨(h.extends hc).definitions, (h.extends hc).captures⟩

/-- **Instructions that consist of the code of phrases**, with some bytes
between each two and any instructions after the last. -/
inductive Consists (gap : Nat) :
    Setting → Nat → List Phrase → List Instruction → Setting → Prop where
  | nil {c c' start is} : c.symbols.inner.Widens c'.symbols.inner →
      Consists gap c start [] is c'
  | cons {c c₁ c' start p rest is mid js} :
      Writes c start p is c₁ → (rest ≠ [] → sizeAll mid = gap) →
      Consists gap c₁ (start + sizeAll is + gap) rest js c' →
      Consists gap c start (p :: rest) (is ++ (mid ++ js)) c'

namespace Consists

variable {c c₁ c₂ c' : Setting} {start gap : Nat} {p q : Phrase} {is js tail : List Instruction}

/-- The code of a phrase with one part, and something after it. -/
theorem one (hp : Writes c start p is c₁) (h : c₁.symbols.inner.Widens c'.symbols.inner) :
    Consists gap c start [p] (is ++ tail) c' := by
  rw [← List.append_nil tail]
  exact .cons hp (absurd rfl) (.nil h)

/-- One more part before others, with nothing between. -/
theorem next {ps : List Phrase} (hp : Writes c start p is c₁)
    (h : Consists 0 c₁ (start + sizeAll is) ps js c') :
    Consists 0 c start (p :: ps) (is ++ js) c' :=
  @cons 0 c c₁ c' start p ps is [] js hp (fun _ => rfl) h

/-- The code of a phrase with two parts, and something after them. -/
theorem two (hp : Writes c start p is c₁) (hq : Writes c₁ (start + sizeAll is) q js c₂) :
    Consists 0 c start [p, q] (is ++ (js ++ tail)) c₂ :=
  next hp (one hq (.refl _))

/-- What is bound and captured before the first phrase keeps its place in the
scope that the last one leaves. -/
theorem widens {ps : List Phrase} (h : Consists gap c start ps is c') (hc : c.symbols.Coherent) :
    c.symbols.inner.Widens c'.symbols.inner := by
  induction h with
  | nil h => exact h
  | cons hw _ _ ih => exact (hw.widens hc).trans (ih (hw.extends hc).coherent)

end Consists

/-- **The code of a phrase consists of the code of its parts.** -/
theorem Writes.consists {c c' : Setting} {start : Nat} {p : Phrase} {is : List Instruction}
    (h : Writes c start p is c') (hc : c.symbols.Coherent) :
    Consists p.gap c start p.parts is c' := by
  have hwidens := h.widens hc
  cases h with
  | ident | number | string | function | boolean | exprsNil | pairsNil | branchNil | bodyNil
  | stmtsNil => exact .nil hwidens
  | unary h | array h | map h | bodyExpr h | bodyRet _ h | stmtExpr h | stmtRet _ h =>
    exact .one h (.refl _)
  | branchExpr h => exact List.append_nil is ▸ .one h (.refl _)
  | stmtBind h => exact .one h ⟨Nat.le_succ _, List.prefix_refl _⟩
  | less h₁ h₂ | call h₁ h₂ | index h₁ h₂ => exact .two h₁ h₂
  | binary hop h₁ h₂ => exact Phrase.parts_binary hop ▸ .two h₁ h₂
  | @exprsCons _ _ _ _ _ _ _ js h₁ h₂ | @stmtsCons _ _ _ _ _ _ _ js h₁ h₂ =>
    rw [← List.append_nil js]
    exact .two h₁ h₂
  | @branchCons _ _ _ _ _ _ _ js hlast h₁ h₂ =>
    rw [Phrase.parts_branch hlast, ← List.append_nil js]
    exact .two h₁ h₂
  | @bodyCons _ _ _ _ _ _ _ js hlast h₁ h₂ =>
    rw [Phrase.parts_body hlast, ← List.append_nil js]
    exact .two h₁ h₂
  | @pairsCons _ _ _ _ _ _ _ _ _ _ ks h₁ h₂ h₃ =>
    rw [← List.append_nil ks]
    exact .next h₁ (.two h₂ h₃)
  | @cond _ c₁ c₂ _ _ _ _ _ _ ts ys ns toNo toEnd h₁ h₂ h₃ htoNo =>
    subst htoNo
    rw [← List.append_nil ns]
    refine @Consists.cons 3 _ c₁ _ _ _ _ ts [.jumpNotTruthy _] _ h₁ (fun _ => rfl) ?_
    exact @Consists.cons 3 _ c₂ _ _ _ _ ys [.jump _] _ h₂ (fun _ => rfl) (.one h₃ (.refl _))

/-- The code of one of the parts begins where the compiler has come by it. -/
theorem Consists.part {gap : Nat} {c c₁ c' : Setting} {start start₁ : Nat} {r : Phrase}
    {front back : List Phrase} {is : List Instruction}
    (h : Consists gap c start (front ++ r :: back) is c') (hc : c.symbols.Coherent)
    (hfront : Passes gap c start front c₁ start₁) :
    ∃ pre js post c₂, Writes c₁ start₁ r js c₂ ∧ is = pre ++ (js ++ post) ∧
      start₁ = start + sizeAll pre ∧ c₂.symbols.inner.Widens c'.symbols.inner := by
  induction hfront generalizing is with
  | nil =>
    cases h with
    | @cons _ c₂ _ _ _ _ is mid js hw _ hrest =>
      exact ⟨[], is, mid ++ js, c₂, hw, rfl, rfl, hrest.widens (hw.extends hc).coherent⟩
  | @cons _ _ _ _ _ _ rest fs hp _ ih =>
    cases h with
    | @cons _ _ _ _ _ _ _ mid _ hw hmid hrest =>
      obtain ⟨rfl, rfl⟩ := hp.unique hw
      obtain ⟨pre, ks, post, c₂, hr, rfl, rfl, hwidens⟩ := ih hrest (hp.extends hc).coherent
      refine ⟨fs ++ (mid ++ pre), ks, post, c₂, hr, by simp, ?_, hwidens⟩
      have hne : rest ++ r :: back ≠ [] :=
        List.append_ne_nil_of_right_ne_nil _ (List.cons_ne_nil _ _)
      rw [Instruction.sizeAll_append, Instruction.sizeAll_append, hmid hne]
      omega

/-- **The code of what the compiler comes by** stands in the code of the whole,
and begins where the compiler has come by it. What is bound and captured by its
end keeps its place in the scope that the whole leaves. -/
theorem ComesBy.written {c c₁ c' : Setting} {start start₁ : Nat} {p q : Phrase}
    {is : List Instruction} (h : ComesBy c start p c₁ start₁ q) (hc : c.Reliable)
    (hp : Writes c start p is c') :
    ∃ pre js post c₂, Writes c₁ start₁ q js c₂ ∧ is = pre ++ (js ++ post) ∧
      start₁ = start + sizeAll pre ∧ c₂.symbols.inner.Widens c'.symbols.inner := by
  induction h with
  | here => exact ⟨[], is, [], c', hp, by simp, rfl, .refl _⟩
  | part hq hparts hpasses ih =>
    obtain ⟨pre, js, post, c₂, hw, rfl, rfl, hwidens⟩ := ih
    have hcoherent := (hq.reliable hc).coherent
    have hconsists := hw.consists hcoherent
    rw [hparts] at hconsists
    obtain ⟨pre', ks, post', c₃, hr, rfl, rfl, hwidens'⟩ := hconsists.part hcoherent hpasses
    refine ⟨pre ++ pre', ks, post' ++ post, c₃, hr, by simp, ?_, hwidens'.trans hwidens⟩
    rw [Instruction.sizeAll_append, Nat.add_assoc]

end StackScript
