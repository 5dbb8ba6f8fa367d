import StackScript.Proofs.Code.Encoding

/-!
# The height of the stack in code

Each instruction takes so many values off the stack and leaves so many on it. So
one can say, from the code alone, how many values of its own a function has on
the stack where an instruction begins (`Code.heightAt`): go through the
instructions before it, jumps being no exception. This is the height of a
machine that comes there only if jumps agree with it, and that is what `Steady`
asks: what an instruction takes is there, and a jump leads forward, to an
instruction that begins at the height that the jump leaves behind.

The one place that control does not fall into from the instruction before it is
the one after an unconditional jump. There the other branch of a conditional
begins, without the value that the first branch has just left.
-/

namespace StackScript

namespace Instruction

/-- The values that an instruction takes off the stack. -/
def takes : Instruction → Nat
  | pop | negate | bang | jumpNotTruthy _ | setGlobal _ | setLocal _ | returnValue => 1
  | add | sub | mul | div | equal | notEqual | greaterThan | index => 2
  | makeArray n | makeMap n => n.toNat
  | makeClosure _ n => n.toNat
  | call n => n.toNat + 1
  | _ => 0

/-- The values that an instruction leaves on the stack. -/
def leaves : Instruction → Nat
  | pop | jumpNotTruthy _ | jump _ | setGlobal _ | setLocal _ | returnValue | returnNull => 0
  | _ => 1

/-- The target of a jump. -/
def target? : Instruction → Option UInt16
  | jump t | jumpNotTruthy t => some t
  | _ => none

/-- **The height at which the code after an instruction begins**, given the
instruction's own. -/
def after (i : Instruction) (height : Nat) : Nat :=
  match i with
  | jump _ => height - 1
  | i => height - i.takes + i.leaves

/-- The height after instructions. -/
def rise (is : List Instruction) (height : Nat) : Nat := is.foldl (fun h i => i.after h) height

@[simp] theorem rise_nil (height : Nat) : rise [] height = height := rfl

@[simp] theorem rise_cons (i : Instruction) (is : List Instruction) (height : Nat) :
    rise (i :: is) height = rise is (i.after height) := rfl

@[simp] theorem rise_append (is js : List Instruction) (height : Nat) :
    rise (is ++ js) height = rise js (rise is height) := List.foldl_append

/-- All instructions but unconditional jumps are followed by code at the height
that they leave. -/
theorem after_of_ne_jump {i : Instruction} (h : ∀ t, i ≠ jump t) (height : Nat) :
    i.after height = height - i.takes + i.leaves := by
  cases i with
  | jump t => exact (h t rfl).elim
  | _ => rfl

/-! ## Steady code -/

/-- **Code whose jumps agree with the heights**, from an offset and a height on.
A jump may lead to the end of the code, unless the code is closed. -/
def Steady (closed : Bool) : (start height : Nat) → List Instruction → Prop
  | _, _, [] => True
  | start, height, i :: rest =>
    i.takes ≤ height ∧
    (∀ t, i.target? = some t → ∃ mid back, rest = mid ++ back ∧ (closed = true → back ≠ []) ∧
      t.toNat = start + i.size + sizeAll mid ∧ rise mid (i.after height) = height - i.takes) ∧
    Steady closed (start + i.size) (i.after height) rest

namespace Steady

variable {closed closed' : Bool} {start height : Nat} {is js front back : List Instruction}
  {i : Instruction}

theorem nil : Steady closed start height [] := trivial

/-- An instruction by itself is steady if what it takes is there and it is no
jump. -/
theorem singleton (htakes : i.takes ≤ height) (htarget : i.target? = none) :
    Steady closed start height [i] := by
  refine ⟨htakes, fun t ht => ?_, trivial⟩
  rw [htarget] at ht
  cases ht

/-- **Steady code after steady code is steady.** If the whole is closed, a jump
of the first part to its end needs an instruction to lead to: there must be one
in the second. -/
theorem append (his : Steady closed' start height is)
    (hjs : Steady closed (start + sizeAll is) (rise is height) js)
    (hclosed : closed = true → closed' = true ∨ js ≠ []) :
    Steady closed start height (is ++ js) := by
  induction is generalizing start height with
  | nil => exact hjs
  | cons i is ih =>
    obtain ⟨htakes, htarget, hrest⟩ := his
    rw [sizeAll_cons, ← Nat.add_assoc] at hjs
    refine ⟨htakes, fun t ht => ?_, ih hrest hjs⟩
    obtain ⟨mid, back, rfl, hback, hoffset, hheight⟩ := htarget t ht
    refine ⟨mid, back ++ js, List.append_assoc .., fun h => ?_, hoffset, hheight⟩
    rw [Ne, List.append_eq_nil_iff]
    rintro ⟨rfl, rfl⟩
    exact (hclosed h).elim (fun h => hback h rfl) fun h => h rfl

/-- The code after some instructions is steady, too. -/
theorem right (h : Steady closed start height (front ++ back)) :
    Steady closed (start + sizeAll front) (rise front height) back := by
  induction front generalizing start height with
  | nil => exact h
  | cons i front ih =>
    rw [sizeAll_cons, ← Nat.add_assoc]
    exact ih h.2.2

/-- **Where a jump leads** that stands after some instructions. -/
theorem target {t : UInt16} (h : Steady closed start height (front ++ i :: back))
    (ht : i.target? = some t) :
    ∃ mid rest, front ++ i :: back = front ++ i :: mid ++ rest ∧ (closed = true → rest ≠ []) ∧
      t.toNat = start + sizeAll (front ++ i :: mid) ∧
      rise (front ++ i :: mid) height = rise front height - i.takes := by
  obtain ⟨mid, rest, rfl, hrest, hoffset, hheight⟩ := h.right.2.1 t ht
  refine ⟨mid, rest, ?_, hrest, ?_, ?_⟩
  · rw [List.append_assoc]
    rfl
  · rw [hoffset, sizeAll_append, sizeAll_cons]
    omega
  · rw [rise_append, rise_cons]
    exact hheight

/-- The jumps of closed code lead to where an instruction begins. -/
theorem aimed (h : Steady true start height is) (hi : i ∈ is) {t : UInt16}
    (ht : i.target? = some t) :
    ∃ front back, is = front ++ back ∧ t.toNat = start + sizeAll front ∧ back ≠ [] := by
  obtain ⟨front, back, rfl⟩ := List.append_of_mem hi
  obtain ⟨mid, rest, heq, hrest, hoffset, -⟩ := h.target ht
  exact ⟨_, rest, heq, hoffset, hrest rfl⟩

end Steady

/-! ## Instructions with their offsets -/

/-- Instructions with the offsets at which they stand. -/
def offsets (start : Nat) : List Instruction → List (Nat × Instruction)
  | [] => []
  | i :: is => (start, i) :: offsets (start + i.size) is

theorem offsets_append (start : Nat) (is js : List Instruction) :
    offsets start (is ++ js) = offsets start is ++ offsets (start + sizeAll is) js := by
  induction is generalizing start with
  | nil => rfl
  | cons i is ih =>
    rw [sizeAll_cons, ← Nat.add_assoc]
    exact congrArg _ (ih _)

theorem map_snd_offsets (start : Nat) (is : List Instruction) :
    (offsets start is).map (·.2) = is := by
  induction is generalizing start with
  | nil => rfl
  | cons i is ih => exact congrArg _ (ih _)

/-- An instruction stands at an offset if the instructions before it take as
many bytes. This turns statements about offsets into statements about lists. -/
theorem mem_offsets_iff {start n : Nat} {i : Instruction} {is : List Instruction} :
    (n, i) ∈ offsets start is ↔
      ∃ front back, is = front ++ i :: back ∧ n = start + sizeAll front := by
  induction is generalizing start with
  | nil => simp [offsets]
  | cons j is ih =>
    rw [offsets, List.mem_cons, ih]
    constructor
    · rintro (heq | ⟨front, back, rfl, rfl⟩)
      · cases heq
        exact ⟨[], is, rfl, rfl⟩
      · exact ⟨j :: front, back, rfl, by rw [sizeAll_cons, Nat.add_assoc]⟩
    · rintro ⟨front, back, heq, rfl⟩
      cases front with
      | nil =>
        cases heq
        exact .inl rfl
      | cons k front =>
        cases heq
        exact .inr ⟨front, back, rfl, by rw [sizeAll_cons, Nat.add_assoc]⟩

/-- The instructions before an offset. -/
theorem offset_lt_of_mem {start n : Nat} {i : Instruction} {is : List Instruction}
    (h : (n, i) ∈ offsets start is) : start ≤ n ∧ n < start + sizeAll is := by
  obtain ⟨front, back, rfl, rfl⟩ := mem_offsets_iff.1 h
  have := i.size_pos
  rw [sizeAll_append, sizeAll_cons]
  omega

end Instruction

open Instruction (encodeAll sizeAll rise Steady offsets)

namespace Code

/-- What is read of instructions that were written are these instructions. -/
theorem decodeFrom_encodeAll (found : Array (Nat × Instruction)) (front back : List Instruction) :
    decodeFrom (encodeAll (front ++ back)).toArray found (sizeAll front) =
      ⟨found ++ (offsets (sizeAll front) back).toArray, sizeAll (front ++ back), none⟩ := by
  -- Reading goes through `back`, and what has been read moves over to `front`.
  induction back generalizing found front with
  | nil =>
    have hend := Instruction.decodeAt_sizeAll (front ++ [])
    rw [List.append_nil] at hend ⊢
    rw [decodeFrom]
    split
    · rw [offsets, Array.append_empty]
    · next h => rw [hend] at h; cases h
    · next h => rw [hend] at h; cases h
  | cons i back ih =>
    have hi := (Placed.all (front ++ i :: back)).right.decodeAt
    rw [Nat.zero_add] at hi
    have hrest := ih (found.push (sizeAll front, i)) (front ++ [i])
    rw [List.append_assoc, List.singleton_append, Instruction.sizeAll_append,
      Instruction.sizeAll_cons, Instruction.sizeAll_nil, Nat.add_zero] at hrest
    rw [decodeFrom]
    split
    · next h => rw [hi] at h; cases h
    · next h => rw [hi] at h; cases h
    · next j h =>
      rw [hi] at h
      cases h
      have hpush :
          found.push (sizeAll front, i) ++ (offsets (sizeAll front + i.size) back).toArray =
            found ++ (offsets (sizeAll front) (i :: back)).toArray :=
        Array.ext' (by simp [offsets])
      rw [hrest, hpush]

/-- **Reading undoes writing.** -/
theorem decode_encodeAll (is : List Instruction) :
    decode (encodeAll is).toArray = ⟨(offsets 0 is).toArray, sizeAll is, none⟩ := by
  rw [decode]
  exact (decodeFrom_encodeAll #[] [] is).trans (by rw [Array.empty_append]; rfl)

/-- What is read has been written, and stands where it was written. -/
theorem mem_decode_encodeAll {is : List Instruction} {offset : Nat} {i : Instruction} :
    (offset, i) ∈ (decode (encodeAll is).toArray).instructions ↔
      ∃ front back, is = front ++ i :: back ∧ offset = sizeAll front := by
  rw [decode_encodeAll, List.mem_toArray, Instruction.mem_offsets_iff]
  simp only [Nat.zero_add]

theorem size_encodeAll (is : List Instruction) : (encodeAll is).toArray.size = sizeAll is :=
  Instruction.length_encodeAll is

/-! ## Heights of code -/

/-- The instructions before an offset of some code. -/
def upTo (code : Code) (offset : Nat) : List Instruction :=
  (code.decode.instructions.toList.filter fun x => x.1 < offset).map (·.2)

/-- The first instructions of some code are those before the offset at which
they end. -/
theorem upTo_encodeAll (front back : List Instruction) :
    upTo (encodeAll (front ++ back)).toArray (sizeAll front) = front := by
  have hfront : (offsets 0 front).filter (fun x => x.1 < sizeAll front) = offsets 0 front := by
    rw [List.filter_eq_self]
    intro x hx
    have := (Instruction.offset_lt_of_mem hx).2
    exact decide_eq_true (by omega)
  have hback : (offsets (0 + sizeAll front) back).filter (fun x => x.1 < sizeAll front) = [] := by
    rw [List.filter_eq_nil_iff]
    intro x hx
    have := (Instruction.offset_lt_of_mem hx).1
    simp
    omega
  rw [upTo, decode_encodeAll, Instruction.offsets_append, List.filter_append, hfront, hback,
    List.append_nil, Instruction.map_snd_offsets]

/-- **The height at an offset of some code**: what the instructions before it
leave on the stack. -/
def heightAt (code : Code) (offset : Nat) : Nat := rise (code.upTo offset) 0

/-- The height after the first instructions of some code. -/
theorem heightAt_encodeAll (front back : List Instruction) :
    heightAt (encodeAll (front ++ back)).toArray (sizeAll front) = rise front 0 := by
  rw [heightAt, upTo_encodeAll]

/-- Instructions raise the height of whatever code they stand in. -/
theorem Placed.heightAt {code : Code} {start : Nat} {is : List Instruction}
    (h : code.Placed start is) :
    code.heightAt (start + sizeAll is) = rise is (code.heightAt start) := by
  obtain ⟨front, back, rfl, rfl⟩ := h
  rw [heightAt_encodeAll, ← List.append_assoc, ← Instruction.sizeAll_append, heightAt_encodeAll,
    Instruction.rise_append]

/-! ## Well-formed code -/

/-- **Code that can be read to its end**, and whose jumps all lead forward, to
where an instruction of the same code begins. -/
structure WellFormed (code : Code) : Prop where
  /-- No place holds no instruction. -/
  error : code.decode.error = none
  /-- Nothing is left over. -/
  stop : code.decode.stop = code.size
  /-- Where jumps lead. -/
  jumps : ∀ offset i target, (offset, i) ∈ code.decode.instructions → i.target? = some target →
    offset < target.toNat ∧ target.toNat < code.size ∧
      ∃ j, (target.toNat, j) ∈ code.decode.instructions

/-- Code whose last instruction returns. -/
def EndsInReturn (code : Code) : Prop :=
  ∃ offset i, code.decode.instructions.back? = some (offset, i) ∧
    (i = .returnValue ∨ i = .returnNull)

/-- Steady code is well formed. -/
theorem wellFormed_of_steady {is : List Instruction} {height : Nat}
    (h : Steady true 0 height is) : WellFormed (encodeAll is).toArray := by
  have hdecode := decode_encodeAll is
  refine ⟨by rw [hdecode], by rw [hdecode, size_encodeAll], ?_⟩
  intro offset i target hi ht
  rw [hdecode, List.mem_toArray] at hi
  obtain ⟨front, back, rfl, rfl⟩ := Instruction.mem_offsets_iff.1 hi
  obtain ⟨mid, rest, heq, hrest, htarget, -⟩ := h.target ht
  obtain ⟨j, rest, rfl⟩ := List.exists_cons_of_ne_nil (hrest rfl)
  have hi := i.size_pos
  have hj := j.size_pos
  rw [heq, size_encodeAll, decode_encodeAll, htarget, Nat.zero_add, Nat.zero_add]
  refine ⟨?_, ?_, j, ?_⟩
  · rw [Instruction.sizeAll_append, Instruction.sizeAll_cons]
    omega
  · rw [Instruction.sizeAll_append _ (j :: rest), Instruction.sizeAll_cons j]
    omega
  · rw [List.mem_toArray]
    exact Instruction.mem_offsets_iff.2 ⟨_, rest, rfl, (Nat.zero_add _).symm⟩

/-- Code that is written up to a return ends in one, also when it is read
back. -/
theorem endsInReturn_append (is : List Instruction) {i : Instruction}
    (h : i = .returnValue ∨ i = .returnNull) : EndsInReturn (encodeAll (is ++ [i])).toArray := by
  refine ⟨0 + sizeAll is, i, ?_, h⟩
  rw [decode_encodeAll, Instruction.offsets_append, List.back?_toArray]
  exact List.getLast?_concat

end Code

end StackScript
