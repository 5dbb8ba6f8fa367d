import StackScript.Proofs.Code.Height
import StackScript.Proofs.Compiler.Layout

/-!
# Phrases raise the stack by what they are worth

The code of an expression leaves one value more on the stack than it found
there, the code of a statement leaves nothing, whatever is nested in them: both
branches of a conditional come to the same height, also a branch that is empty,
that ends in a binding or that returns in the middle. And code is steady:
nothing is taken off the stack that the phrase has not put there, and jumps
agree with the heights. Both are said of a phrase at whatever height it begins
(`Writes.balanced`).

The code of statements and of bodies does not end in an expression's code, so
that no jump leads to its end. A jump of an expression may.
-/

namespace StackScript

open Instruction (sizeAll rise Steady)

/-! ## Single instructions -/

/-- **An instruction that only takes values and leaves values**: it is no
jump. -/
structure Instruction.Effect (i : Instruction) (taken left : Nat) : Prop where
  /-- It takes so many. -/
  takes : i.takes = taken
  /-- It leaves so many. -/
  leaves : i.leaves = left
  /-- It is no jump. -/
  target : i.target? = none

/-- The height after an instruction that is no jump. -/
theorem Instruction.Effect.after {i : Instruction} {taken left : Nat} (h : i.Effect taken left)
    (height : Nat) : i.after height = height - taken + left := by
  have hjump : ∀ t, i ≠ .jump t := by
    rintro t rfl
    cases h.target
  rw [Instruction.after_of_ne_jump hjump, h.takes, h.leaves]

/-- A load leaves a value, wherever it comes from. -/
theorem Symbol.effect_of_load? {x : Symbol} {i : Instruction} (h : x.load? = some i) :
    i.Effect 0 1 := by
  obtain ⟨name, storage, n⟩ := x
  cases storage with
  | itself => cases h; exact ⟨rfl, rfl, rfl⟩
  | global | frame | builtin | captured =>
    obtain ⟨-, ⟨⟩⟩ := Option.ite_none_right_eq_some.1 h
    exact ⟨rfl, rfl, rfl⟩

/-- A binding takes the value that it binds. -/
theorem Symbol.effect_of_store? {x : Symbol} {i : Instruction} (h : x.store? = some i) :
    i.Effect 1 0 := by
  obtain ⟨name, storage, n⟩ := x
  cases storage <;> obtain ⟨-, ⟨⟩⟩ := Option.ite_none_right_eq_some.1 h <;> exact ⟨rfl, rfl, rfl⟩

theorem Compile.effect_unaryInstruction (op : UnaryOp) : (unaryInstruction op).Effect 1 1 := by
  cases op <;> exact ⟨rfl, rfl, rfl⟩

theorem Compile.effect_binaryInstruction (op : BinaryOp) : (binaryInstruction op).Effect 2 1 := by
  cases op <;> exact ⟨rfl, rfl, rfl⟩

/-! ## Balanced code -/

/-- **Code that leaves so many values more on the stack**, at whatever height it
begins, and that is steady there. -/
def Balanced (closed : Bool) (start worth : Nat) (is : List Instruction) : Prop :=
  ∀ height, Steady closed start height is ∧ rise is height = height + worth

namespace Balanced

variable {closed closed' : Bool} {start worth worth' left : Nat} {is js : List Instruction}
  {i : Instruction}

theorem nil : Balanced closed start 0 [] := fun _ => ⟨.nil, rfl⟩

theorem singleton (h : i.Effect 0 worth) : Balanced closed start worth [i] := fun height =>
  ⟨.singleton (h.takes ▸ Nat.zero_le _) h.target, h.after height⟩

/-- **Code after code is worth what both are worth.** As with `Steady.append`, a
jump to the end of the first needs something to lead to. -/
theorem append (his : Balanced closed' start worth is)
    (hjs : Balanced closed (start + sizeAll is) worth' js)
    (hclosed : closed = true → closed' = true ∨ js ≠ []) :
    Balanced closed start (worth + worth') (is ++ js) := by
  intro height
  obtain ⟨hsteady, hrise⟩ := his height
  obtain ⟨hsteady', hrise'⟩ := hjs (rise is height)
  refine ⟨hsteady.append hsteady' hclosed, ?_⟩
  rw [Instruction.rise_append, hrise', hrise, Nat.add_assoc]

/-- Some code, and then an instruction that takes what the code has left. -/
theorem concat (his : Balanced closed' start worth is) (hi : i.Effect worth left) :
    Balanced closed start left (is ++ [i]) := by
  intro height
  obtain ⟨hsteady, hrise⟩ := his height
  have htakes : i.takes ≤ rise is height := by
    rw [hi.takes, hrise]
    exact Nat.le_add_left worth height
  refine ⟨hsteady.append (.singleton htakes hi.target) fun _ => .inr (List.cons_ne_nil _ _), ?_⟩
  rw [Instruction.rise_append, Instruction.rise_cons, Instruction.rise_nil, hi.after, hrise,
    Nat.add_sub_cancel]

/-- The captures of a function are loaded one by one. -/
theorem loads {xs : List Symbol} (h : Symbol.loads? xs = some is) :
    Balanced false start xs.length is := by
  induction xs generalizing is start with
  | nil => cases h; exact nil
  | cons x xs ih =>
    rw [Symbol.loads?] at h
    split at h
    · next i is hi his =>
      cases h
      have hfirst : Balanced false start 1 [i] := singleton (Symbol.effect_of_load? hi)
      rw [List.length_cons, Nat.add_comm]
      exact hfirst.append (ih his) nofun
    · cases h

/-- **A conditional**: its branches begin where its test began, and both leave
one value. -/
theorem cond {toNo toEnd : Nat} {ts ys ns : List Instruction} (hts : Balanced false start 1 ts)
    (hys : Balanced false (start + sizeAll ts + 3) 1 ys) (hns : Balanced false toNo 1 ns)
    (htoNo : toNo = start + sizeAll ts + 3 + sizeAll ys + 3) (hlt : toNo < 65536)
    (htoEnd : toEnd = toNo + sizeAll ns) (hlt' : toEnd < 65536) :
    Balanced false start 1 (ts ++ (.jumpNotTruthy (UInt16.ofNat toNo) ::
      (ys ++ .jump (UInt16.ofNat toEnd) :: ns))) := by
  intro height
  have htarget : ∀ n < 65536, ∀ t, some (UInt16.ofNat n) = some t → t.toNat = n := by
    rintro n hn t ⟨⟩
    exact UInt16.toNat_ofNat_of_lt' hn
  obtain ⟨htest, htest'⟩ := hts height
  obtain ⟨hyes, hyes'⟩ := hys height
  obtain ⟨hno, hno'⟩ := hns height
  have hskip : ∀ t, (Instruction.jumpNotTruthy t).after (height + 1) = height := fun _ => rfl
  have hleave : ∀ t, (Instruction.jump t).after (height + 1) = height := fun _ => rfl
  -- The jump to the end leaves the value of the first branch there; the second begins without it.
  have hsecond : Steady false (start + sizeAll ts + 3 + sizeAll ys) (rise ys height)
      (.jump (UInt16.ofNat toEnd) :: ns) := by
    rw [hyes']
    refine ⟨Nat.zero_le _, fun t ht => ⟨ns, [], (List.append_nil ns).symm, nofun, ?_, hno'⟩, ?_⟩
    · rw [htarget _ hlt' t ht, htoEnd, htoNo]
      rfl
    · rw [hleave]
      exact htoNo ▸ hno
  have hfirst : Steady false (start + sizeAll ts) (rise ts height)
      (.jumpNotTruthy (UInt16.ofNat toNo) :: (ys ++ .jump (UInt16.ofNat toEnd) :: ns)) := by
    rw [htest']
    refine ⟨Nat.le_add_left 1 height, fun t ht => ⟨ys ++ [.jump (UInt16.ofNat toEnd)], ns,
      List.append_cons ys _ ns, nofun, ?_, ?_⟩, ?_⟩
    · rw [htarget _ hlt t ht, htoNo, Instruction.sizeAll_append, ← Nat.add_assoc]
      rfl
    · rw [hskip, Instruction.rise_append, hyes']
      exact hleave (UInt16.ofNat toEnd)
    · rw [hskip]
      exact hyes.append hsecond nofun
  refine ⟨htest.append hfirst nofun, ?_⟩
  rw [Instruction.rise_append, htest', Instruction.rise_cons, hskip, Instruction.rise_append, hyes',
    Instruction.rise_cons, hleave, hno']

end Balanced

/-! ## Phrases -/

namespace Phrase

/-- The values that the code of a phrase leaves on the stack. -/
def worth : Phrase → Nat
  | expr _ | branch _ => 1
  | exprs es => es.length
  | pairs entries => 2 * entries.length
  | body _ | stmt _ | stmts _ => 0

/-- Whether no jump of a phrase can lead to the end of its code. -/
def closed : Phrase → Bool
  | body _ | stmt _ | stmts _ => true
  | expr _ | exprs _ | pairs _ | branch _ => false

end Phrase

/-- **The code of every phrase is balanced.** -/
theorem Writes.balanced {c c' : Setting} {start : Nat} {p : Phrase} {is : List Instruction}
    (hw : Writes c start p is c') : Balanced p.closed start p.worth is := by
  induction hw with
  | ident _ hload => exact .singleton (Symbol.effect_of_load? hload)
  | number | string | branchNil | bodyNil => exact .singleton ⟨rfl, rfl, rfl⟩
  | @boolean _ _ b => cases b <;> exact .singleton ⟨rfl, rfl, rfl⟩
  | unary _ ih => exact ih.concat (Compile.effect_unaryInstruction _)
  | less _ _ ih₁ ih₂ =>
    rw [← List.append_assoc]
    exact (ih₁.append ih₂ nofun).concat (Compile.effect_binaryInstruction .less)
  | binary _ _ _ ih₁ ih₂ =>
    rw [← List.append_assoc]
    exact (ih₁.append ih₂ nofun).concat (Compile.effect_binaryInstruction _)
  | index _ _ ih₁ ih₂ =>
    rw [← List.append_assoc]
    exact (ih₁.append ih₂ nofun).concat ⟨rfl, rfl, rfl⟩
  | cond _ _ _ htoNo hlt htoEnd hlt' ihtest ihyes ihno =>
    exact .cond ihtest ihyes ihno htoNo hlt htoEnd hlt'
  | function _ _ _ hcaptures hloads =>
    refine (Balanced.loads hloads).concat ⟨?_, rfl, rfl⟩
    exact (UInt8.toNat_ofNat_of_lt' hcaptures).trans Array.length_toList.symm
  | call _ _ hlt ihcallee ihargs =>
    rw [← List.append_assoc]
    refine (ihcallee.append ihargs nofun).concat ⟨?_, rfl, rfl⟩
    exact (congrArg (· + 1) (UInt8.toNat_ofNat_of_lt' hlt)).trans (Nat.add_comm ..)
  | array _ hlt ih | map _ hlt ih =>
    exact ih.concat ⟨UInt16.toNat_ofNat_of_lt' hlt, rfl, rfl⟩
  | exprsNil | pairsNil | stmtsNil => exact .nil
  | exprsCons _ _ ihe ihes =>
    rw [Phrase.worth, List.length_cons, Nat.add_comm]
    exact ihe.append ihes nofun
  | pairsCons _ _ _ ihkey ihvalue ihrest =>
    -- An entry is worth two values.
    rw [Phrase.worth, List.length_cons, Nat.mul_succ, Nat.add_comm, ← List.append_assoc]
    refine (ihkey.append ihvalue nofun).append ?_ nofun
    rw [Instruction.add_sizeAll_append]
    exact ihrest
  | branchExpr _ ih => exact ih
  | branchCons _ _ _ ihx ihrest => exact ihx.append ihrest nofun
  | bodyCons _ _ _ ihx ihrest | stmtsCons _ _ ihx ihrest =>
    exact ihx.append ihrest fun _ => .inl rfl
  | bodyExpr _ ih | bodyRet _ _ ih | stmtExpr _ ih | stmtRet _ _ ih =>
    exact ih.concat ⟨rfl, rfl, rfl⟩
  | stmtBind _ hstore ih => exact ih.concat (Symbol.effect_of_store? hstore)

end StackScript
