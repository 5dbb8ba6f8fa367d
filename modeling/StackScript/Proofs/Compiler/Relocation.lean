import StackScript.Proofs.Symbol.Coherence

/-!
# The code of the top level elsewhere

The code of a program depends on where it stands only by the targets of its
jumps. A program that has a layout at some offset has one at every offset before
it, with all targets moved (`Writes.relocate`), and the names and constants
after it are the same: functions are numbered and laid out without regard to
what stands around their literals.
-/

namespace StackScript

open Instruction (encodeAll sizeAll)

namespace Instruction

/-- Whether an instruction is the same everywhere at the top level, which is no
closure that could be pushed. -/
def isFixed : Instruction → Bool
  | jump _ | jumpNotTruthy _ | currentClosure => false
  | _ => true

/-- **An instruction of the top level, and the same so many bytes further
on.** -/
inductive Moved (d : Nat) : Instruction → Instruction → Prop where
  | jump {t t' : UInt16} : t'.toNat = t.toNat + d → Moved d (.jump t) (.jump t')
  | jumpNotTruthy {t t' : UInt16} : t'.toNat = t.toNat + d →
      Moved d (.jumpNotTruthy t) (.jumpNotTruthy t')
  | same {i : Instruction} : i.isFixed = true → Moved d i i

/-- An instruction that is moved keeps its size. -/
theorem Moved.size_eq {d : Nat} {i i' : Instruction} (h : Moved d i i') : i'.size = i.size := by
  cases h <;> rfl

/-- So do instructions in a row, which is why parts that stand behind each other
are all moved by the same distance. -/
theorem sizeAll_of_moved {d : Nat} {is is' : List Instruction} (h : List.Forall₂ (Moved d) is is') :
    sizeAll is' = sizeAll is := by
  induction h with
  | nil => rfl
  | cons hi _ ih => rw [sizeAll_cons, sizeAll_cons, hi.size_eq, ih]

end Instruction

open Instruction (Moved)

/-! ## Names of the top level -/

/-- A setting of the top level that can be relied on. -/
structure Setting.AtTop (c : Setting) : Prop where
  /-- The names can be relied on. -/
  coherent : c.symbols.Coherent
  /-- No function is open. -/
  outer : c.symbols.outer = []

/-- Code of the top level leaves the top level as something to rely on. -/
theorem Setting.AtTop.extends {c c' : Setting} {ns : Names} (h : c.AtTop) (hext : c.Extends ns c') :
    c'.AtTop := by
  refine ⟨hext.coherent, ?_⟩
  have houter := hext.outer
  rw [h.outer] at houter
  exact List.forall₂_nil_left_iff.1 houter

/-- A name of the top level is a global or a builtin function. -/
theorem Setting.AtTop.moved_load {c : Setting} {name : String} {x : Symbol} {symbols : SymbolTable}
    {i : Instruction} (h : c.AtTop) (hresolve : c.symbols.resolve name = some (x, symbols))
    (hload : x.load? = some i) (d : Nat) : Moved d i i := by
  obtain ⟨hcoherent, hinner, houter, hfound⟩ := h.coherent.resolve hresolve
  have hnil : symbols.outer = [] := by
    rw [h.outer] at houter
    exact List.forall₂_nil_left_iff.1 houter
  cases hfound with
  | seen hne => exact (hne hnil).elim
  | shared _ htop =>
    obtain ⟨name', storage, n⟩ := x
    rcases hcoherent.isTop.seen name _ htop with hglobal | ⟨hbuiltin, -⟩
    · cases hglobal
      obtain ⟨-, ⟨⟩⟩ := Option.ite_none_right_eq_some.1 hload
      exact .same rfl
    · cases hbuiltin
      obtain ⟨-, ⟨⟩⟩ := Option.ite_none_right_eq_some.1 hload
      exact .same rfl

/-- A function of the top level captures nothing. -/
theorem Setting.AtTop.captures_eq {c c' : Setting} {name : Option String} {params : List Ident}
    {ns : Names} (h : c.AtTop)
    (hext : (⟨c.symbols.enterFunction name params, c.constants⟩ : Setting).Extends ns c') :
    c'.symbols.inner.captures = #[] := by
  have houter := hext.outer
  rw [SymbolTable.outer_enterFunction, h.outer] at houter
  have hcoherent := hext.coherent
  rw [SymbolTable.Coherent] at hcoherent
  cases houter' : c'.symbols.outer with
  | nil => rw [houter'] at houter; cases houter
  | cons top rest =>
    rw [houter'] at houter hcoherent
    cases houter with
    | cons _ hrest =>
      cases hrest
      cases hcoherent with
      | outermost _ hcaptures => exact hcaptures

/-! ## Layouts are moved -/

/-- An instruction that is no jump is the same further on. -/
theorem forall₂_moved_singleton {d : Nat} {i : Instruction} (h : i.isFixed = true) :
    List.Forall₂ (Moved d) [i] [i] := .cons (.same h) .nil

/-- The instruction that sets a variable is no jump. -/
theorem Symbol.isFixed_of_store? {x : Symbol} {i : Instruction} (h : x.store? = some i) :
    i.isFixed = true := by
  obtain ⟨name, storage, n⟩ := x
  cases storage <;> obtain ⟨-, ⟨⟩⟩ := Option.ite_none_right_eq_some.1 h <;> rfl

/-- A phrase has a layout at an offset, which is moved to give some
instructions. -/
def Relocated (d : Nat) (c : Setting) (start : Nat) (p : Phrase) (is : List Instruction)
    (c' : Setting) : Prop :=
  ∃ is', Writes c start p is' c' ∧ List.Forall₂ (Moved d) is' is

/-- One phrase after another. -/
theorem Relocated.next {c c₁ c₂ : Setting} {d start place : Nat} {p q : Phrase}
    {is js : List Instruction} (hp : Relocated d c start p is c₁) (hplace : place = start + d)
    (hc : c.AtTop) (hq : ∀ {start'}, place + sizeAll is = start' + d → c₁.AtTop →
      Relocated d c₁ start' q js c₂) :
    ∃ is' js', Writes c start p is' c₁ ∧ Writes c₁ (start + sizeAll is') q js' c₂ ∧
      List.Forall₂ (Moved d) is' is ∧ List.Forall₂ (Moved d) js' js := by
  obtain ⟨is', hw, his⟩ := hp
  have hstart : place + sizeAll is = start + sizeAll is' + d := by
    rw [hplace, Instruction.sizeAll_of_moved his, Nat.add_right_comm]
  obtain ⟨js', hw', hjs⟩ := hq hstart (hc.extends (hw.extends hc.coherent))
  exact ⟨is', js', hw, hw', his, hjs⟩

/-- **A layout of the top level at an offset is one at every offset before it**,
with the targets of jumps moved. -/
theorem Writes.relocate {c c' : Setting} {start d place : Nat} {p : Phrase} {is : List Instruction}
    (hw : Writes c place p is c') (hplace : place = start + d) (hc : c.AtTop) :
    Relocated d c start p is c' := by
  induction hw generalizing start with
  | ident hresolve hload =>
    exact ⟨_, .ident hresolve hload, .cons (hc.moved_load hresolve hload d) .nil⟩
  | number hfinite hintern => exact ⟨_, .number hfinite hintern, forall₂_moved_singleton rfl⟩
  | @boolean _ _ b => exact ⟨_, .boolean, forall₂_moved_singleton (by cases b <;> rfl)⟩
  | string hintern => exact ⟨_, .string hintern, forall₂_moved_singleton rfl⟩
  | @unary _ _ _ op _ _ _ _ ih =>
    obtain ⟨is', hw, his⟩ := ih hplace hc
    exact ⟨_, .unary hw, List.rel_append his (forall₂_moved_singleton (by cases op <;> rfl))⟩
  | less _ _ ihright ihleft =>
    obtain ⟨is', js', hw, hw', his, hjs⟩ := (ihright hplace hc).next hplace hc ihleft
    exact ⟨_, .less hw hw', List.rel_append his (List.rel_append hjs (forall₂_moved_singleton rfl))⟩
  | @binary _ _ _ _ op _ _ _ _ _ hop _ _ ihleft ihright =>
    obtain ⟨is', js', hw, hw', his, hjs⟩ := (ihleft hplace hc).next hplace hc ihright
    exact ⟨_, .binary hop hw hw', List.rel_append his (List.rel_append hjs
      (forall₂_moved_singleton (by cases op <;> rfl)))⟩
  | @cond _ _ _ _ place _ _ _ _ ts ys ns toNo toEnd htest hyes hno htoNo hlt htoEnd hlt' ihtest
      ihyes ihno =>
    have hc₁ := hc.extends (htest.extends hc.coherent)
    have hc₂ := hc₁.extends (hyes.extends hc₁.coherent)
    obtain ⟨ts', hw₁, hts⟩ := ihtest hplace hc
    have hsize₁ := Instruction.sizeAll_of_moved hts
    -- Each part is moved by the same distance, as the parts before it keep
    -- their sizes.
    have hplace₁ : place + sizeAll ts + 3 = start + sizeAll ts' + 3 + d := by omega
    obtain ⟨ys', hw₂, hys⟩ := ihyes hplace₁ hc₁
    have hsize₂ := Instruction.sizeAll_of_moved hys
    have hplace₂ : toNo = start + sizeAll ts' + 3 + sizeAll ys' + 3 + d := by omega
    obtain ⟨ns', hw₃, hns⟩ := ihno hplace₂ hc₂
    have hsize₃ := Instruction.sizeAll_of_moved hns
    refine ⟨_, .cond hw₁ hw₂ hw₃ rfl (by omega) rfl (by omega), ?_⟩
    refine List.rel_append hts
      (.cons (.jumpNotTruthy ?_) (List.rel_append hys (.cons (.jump ?_) hns)))
    · rw [UInt16.toNat_ofNat_of_lt' hlt, UInt16.toNat_ofNat_of_lt' (by show _ < 65536; omega)]
      omega
    · rw [UInt16.toNat_ofNat_of_lt' hlt', UInt16.toNat_ofNat_of_lt' (by show _ < 65536; omega)]
      omega
  | function hparams hbody hleave hcaptures hloads hconstants _ =>
    -- The body stands in code of its own, at offset zero, and a function of the
    -- top level captures nothing: so all of it is the same further on.
    have hnone := hc.captures_eq (hbody.extends (hc.coherent.enterFunction _ _))
    refine ⟨_, .function hparams hbody hleave hcaptures hloads hconstants, ?_⟩
    rw [hnone] at hloads
    cases hloads
    exact forall₂_moved_singleton rfl
  | call _ _ hlt ihcallee ihargs =>
    obtain ⟨is', js', hw, hw', his, hjs⟩ := (ihcallee hplace hc).next hplace hc ihargs
    exact ⟨_, .call hw hw' hlt,
      List.rel_append his (List.rel_append hjs (forall₂_moved_singleton rfl))⟩
  | array hitems hlt ih =>
    obtain ⟨is', hw, his⟩ := ih hplace hc
    exact ⟨_, .array hw hlt, List.rel_append his (forall₂_moved_singleton rfl)⟩
  | index _ _ ihcontainer ihkey =>
    obtain ⟨is', js', hw, hw', his, hjs⟩ := (ihcontainer hplace hc).next hplace hc ihkey
    exact ⟨_, .index hw hw',
      List.rel_append his (List.rel_append hjs (forall₂_moved_singleton rfl))⟩
  | map hentries hlt ih =>
    obtain ⟨is', hw, his⟩ := ih hplace hc
    exact ⟨_, .map hw hlt, List.rel_append his (forall₂_moved_singleton rfl)⟩
  | exprsNil => exact ⟨_, .exprsNil, .nil⟩
  | exprsCons _ _ ihe ihes =>
    obtain ⟨is', js', hw, hw', his, hjs⟩ := (ihe hplace hc).next hplace hc ihes
    exact ⟨_, .exprsCons hw hw', List.rel_append his hjs⟩
  | pairsNil => exact ⟨_, .pairsNil, .nil⟩
  | pairsCons hkey _ _ ihkey ihvalue ihrest =>
    obtain ⟨is', js', hw, hw', his, hjs⟩ := (ihkey hplace hc).next hplace hc ihvalue
    have hplace' := Instruction.sizeAll_of_moved his
    obtain ⟨js', ks', hw', hw'', hjs, hks⟩ := Relocated.next ⟨js', hw', hjs⟩
      (by rw [hplace, hplace', Nat.add_right_comm]) (hc.extends (hkey.extends hc.coherent)) ihrest
    exact ⟨_, .pairsCons hw hw' hw'', List.rel_append his (List.rel_append hjs hks)⟩
  | branchNil => exact ⟨_, .branchNil, forall₂_moved_singleton rfl⟩
  | branchExpr _ ih =>
    obtain ⟨is', hw, his⟩ := ih hplace hc
    exact ⟨_, .branchExpr hw, his⟩
  | branchCons hlast _ _ ihx ihrest =>
    obtain ⟨is', js', hw, hw', his, hjs⟩ := (ihx hplace hc).next hplace hc ihrest
    exact ⟨_, .branchCons hlast hw hw', List.rel_append his hjs⟩
  | bodyNil => exact ⟨_, .bodyNil, forall₂_moved_singleton rfl⟩
  | bodyExpr _ ih =>
    obtain ⟨is', hw, his⟩ := ih hplace hc
    exact ⟨_, .bodyExpr hw, List.rel_append his (forall₂_moved_singleton rfl)⟩
  | bodyRet hglobal _ ih =>
    obtain ⟨is', hw, his⟩ := ih hplace hc
    exact ⟨_, .bodyRet hglobal hw, List.rel_append his (forall₂_moved_singleton rfl)⟩
  | bodyCons hlast _ _ ihx ihrest =>
    obtain ⟨is', js', hw, hw', his, hjs⟩ := (ihx hplace hc).next hplace hc ihrest
    exact ⟨_, .bodyCons hlast hw hw', List.rel_append his hjs⟩
  | stmtExpr _ ih =>
    obtain ⟨is', hw, his⟩ := ih hplace hc
    exact ⟨_, .stmtExpr hw, List.rel_append his (forall₂_moved_singleton rfl)⟩
  | stmtBind _ hstore ih =>
    obtain ⟨is', hw, his⟩ := ih hplace hc
    exact ⟨_, .stmtBind hw hstore, List.rel_append his
      (forall₂_moved_singleton (Symbol.isFixed_of_store? hstore))⟩
  | stmtRet hglobal _ ih =>
    obtain ⟨is', hw, his⟩ := ih hplace hc
    exact ⟨_, .stmtRet hglobal hw, List.rel_append his (forall₂_moved_singleton rfl)⟩
  | stmtsNil => exact ⟨_, .stmtsNil, .nil⟩
  | stmtsCons _ _ ihx ihrest =>
    obtain ⟨is', js', hw, hw', his, hjs⟩ := (ihx hplace hc).next hplace hc ihrest
    exact ⟨_, .stmtsCons hw hw', List.rel_append his hjs⟩

end StackScript
