import Mathlib.Data.List.Infix
import StackScript.Proofs.Code.Height
import StackScript.Value.Basic

/-!
# What the operands of code refer to

Code refers to constants and to globals by number. It is **linked** to a pool of
constants if every number names a constant of the right kind (`Code.Linked`); a
pool that grows at its end keeps what is linked to it. The globals that code
sets are bounded (`Code.SetsBelow`), and only those that it sets: a global that
does not exist yet can be read all the same.
-/

namespace StackScript

open Instruction (encodeAll sizeAll)

/-- Whether a value is one that programs write as a literal: a number or a
string. -/
def Value.isLiteral : Value → Bool
  | number _ | string _ => true
  | _ => false

/-- What stands in an array keeps its place when the array grows. -/
theorem getElem?_of_isPrefixOf {α : Type} {xs ys : Array α} (h : xs.toList <+: ys.toList) {i : Nat}
    {x : α} (hx : xs[i]? = some x) : ys[i]? = some x := by
  rw [← Array.getElem?_toList] at hx ⊢
  obtain ⟨more, hmore⟩ := h
  rw [← hmore, List.getElem?_append_left (List.getElem?_eq_some_iff.1 hx).1, hx]

/-- **The operands of an instruction name constants of a pool**: a literal, or a
routine of which a closure can be built. -/
def Instruction.LinkedTo (pool : Array Value) : Instruction → Prop
  | constant n => ∃ v, pool[n.toNat]? = some v ∧ v.isLiteral = true
  | makeClosure n _ => ∃ body, pool[n.toNat]? = some (.routine body)
  | _ => True

/-- What an instruction names in a pool it names in every pool that begins with
it. -/
theorem Instruction.LinkedTo.mono {pool pool' : Array Value} {i : Instruction} (h : i.LinkedTo pool)
    (hp : pool.toList <+: pool'.toList) : i.LinkedTo pool' := by
  cases i with
  | constant =>
    obtain ⟨v, hv, hliteral⟩ := h
    exact ⟨v, getElem?_of_isPrefixOf hp hv, hliteral⟩
  | makeClosure =>
    obtain ⟨body, hbody⟩ := h
    exact ⟨body, getElem?_of_isPrefixOf hp hbody⟩
  | _ => trivial

namespace Code

variable {pool pool' : Array Value} {code : Code} {is : List Instruction} {bound bound' : Nat}

/-- **Code that is linked to a pool**: it can be read to its end, and the
operands of all its instructions name constants of the pool. -/
structure Linked (pool : Array Value) (code : Code) : Prop where
  /-- No place holds no instruction. -/
  error : code.decode.error = none
  /-- What the operands name. -/
  operands : ∀ offset i, (offset, i) ∈ code.decode.instructions → i.LinkedTo pool

/-- So it is with all instructions of some code. -/
theorem Linked.mono (h : code.Linked pool) (hp : pool.toList <+: pool'.toList) :
    code.Linked pool' :=
  ⟨h.error, fun offset i hi => (h.operands offset i hi).mono hp⟩

/-- Code is linked if the instructions that it was made of are. -/
theorem linked_encodeAll (h : ∀ i ∈ is, i.LinkedTo pool) : Linked pool (encodeAll is).toArray := by
  refine ⟨by rw [decode_encodeAll], fun offset i hi => ?_⟩
  obtain ⟨front, back, rfl, -⟩ := mem_decode_encodeAll.1 hi
  exact h i (List.mem_append_right front List.mem_cons_self)

/-- **Code that sets only globals below a bound.** -/
def SetsBelow (bound : Nat) (code : Code) : Prop :=
  ∀ offset n, (offset, .setGlobal n) ∈ code.decode.instructions → n.toNat < bound

/-- A bound on globals may be raised. -/
theorem SetsBelow.mono (h : code.SetsBelow bound) (hb : bound ≤ bound') : code.SetsBelow bound' :=
  fun offset n hmem => Nat.lt_of_lt_of_le (h offset n hmem) hb

/-- Code sets what the instructions set that it was made of. -/
theorem setsBelow_encodeAll (h : ∀ n, .setGlobal n ∈ is → n.toNat < bound) :
    SetsBelow bound (encodeAll is).toArray := by
  intro offset n hmem
  obtain ⟨front, back, rfl, -⟩ := mem_decode_encodeAll.1 hmem
  exact h n (List.mem_append_right front List.mem_cons_self)

end Code

end StackScript
