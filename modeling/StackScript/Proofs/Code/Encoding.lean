import StackScript.Code.Builder

/-!
# Instructions in code

Code is bytes, and reading it back is one instruction at a time. What is proved
about compiled code is better said of the **list of instructions** that was
written: this module ties the two.

An instruction is read back wherever its bytes stand (`Code.decodeAt_encode`),
whatever precedes and follows them. So a piece of code can be spoken of as a
list of instructions and the offset at which it is placed (`Code.Placed`).
-/

namespace StackScript

namespace Instruction

/-- **The bytes of instructions**, one after the other. -/
def encodeAll (is : List Instruction) : List UInt8 := is.flatMap encode

/-- The bytes that instructions take. -/
def sizeAll : List Instruction → Nat
  | [] => 0
  | i :: rest => i.size + sizeAll rest

/-- An instruction takes at least the byte of its opcode. So whoever moves past
instructions makes progress. -/
theorem size_pos (i : Instruction) : 0 < i.size := i.op.size_pos

/-- An instruction takes as many bytes as its opcode says, whatever its operands
are. -/
theorem length_encode (i : Instruction) : i.encode.length = i.size := by
  cases i <;> rfl

/-! ## Lists of instructions -/

@[simp] theorem size_jump (n : UInt16) : (jump n).size = 3 := rfl

@[simp] theorem size_jumpNotTruthy (n : UInt16) : (jumpNotTruthy n).size = 3 := rfl

@[simp] theorem encodeAll_nil : encodeAll [] = [] := rfl

@[simp] theorem encodeAll_cons (i : Instruction) (is : List Instruction) :
    encodeAll (i :: is) = i.encode ++ encodeAll is := rfl

/-- Code that is written in two parts is the bytes of both. -/
@[simp] theorem encodeAll_append (is js : List Instruction) :
    encodeAll (is ++ js) = encodeAll is ++ encodeAll js :=
  List.flatMap_append

@[simp] theorem sizeAll_nil : sizeAll [] = 0 := rfl

@[simp] theorem sizeAll_cons (i : Instruction) (is : List Instruction) :
    sizeAll (i :: is) = i.size + sizeAll is := rfl

/-- Sizes add up. Offsets in code are computed with this. -/
@[simp] theorem sizeAll_append (is js : List Instruction) :
    sizeAll (is ++ js) = sizeAll is + sizeAll js := by
  induction is with
  | nil => rw [List.nil_append, sizeAll_nil, Nat.zero_add]
  | cons i is ih => rw [List.cons_append, sizeAll_cons, sizeAll_cons, ih, Nat.add_assoc]

/-- Where instructions end that follow others. -/
theorem add_sizeAll_append (start : Nat) (is js : List Instruction) :
    start + sizeAll (is ++ js) = start + sizeAll is + sizeAll js := by
  rw [sizeAll_append, Nat.add_assoc]

/-- The size of instructions is the number of their bytes. -/
@[simp] theorem length_encodeAll (is : List Instruction) :
    (encodeAll is).length = sizeAll is := by
  induction is with
  | nil => rfl
  | cons i is ih => rw [encodeAll_cons, List.length_append, length_encode, ih, sizeAll_cons]

end Instruction

/-! ## Reading instructions back -/

namespace Code

/-- **Two bytes are read back as the number they were written for.** -/
theorem join_wide (n : UInt16) :
    (n >>> 8).toUInt8.toUInt16 <<< 8 ||| n.toUInt8.toUInt16 = n := by
  apply UInt16.toNat_inj.1
  have hn : n.toNat < 65536 := n.toNat_lt
  have hhigh : n.toNat >>> 8 % 256 = n.toNat / 256 := by
    rw [Nat.shiftRight_eq_div_pow]
    omega
  have hlow : n.toNat % 256 < 2 ^ 8 := Nat.mod_lt _ (by decide)
  simp only [UInt16.toNat_or, UInt16.toNat_shiftLeft, UInt8.toNat_toUInt16,
    UInt16.toNat_toUInt8, UInt16.toNat_shiftRight]
  show (n.toNat >>> 8 % 256) <<< 8 % 65536 ||| n.toNat % 256 = n.toNat
  rw [hhigh, Nat.mod_eq_of_lt (by rw [Nat.shiftLeft_eq]; omega),
    ← Nat.shiftLeft_add_eq_or_of_lt hlow, Nat.shiftLeft_eq]
  omega

/-- The byte of a list that so many bytes precede. -/
theorem getElem?_append_add (front back : List UInt8) (k : Nat) :
    (front ++ back).toArray[front.length + k]? = back[k]? := by
  rw [List.getElem?_toArray, List.getElem?_append_right (Nat.le_add_right _ _),
    Nat.add_sub_cancel_left]

/-- An operand of two bytes is read back wherever it stands: the high byte comes
first both when it is written and when it is read. -/
theorem wide?_wide (front back : List UInt8) (n : UInt16) :
    wide? (front ++ (Instruction.wide n ++ back)).toArray front.length = some n := by
  have hhigh := getElem?_append_add front (Instruction.wide n ++ back) 0
  have hlow := getElem?_append_add front (Instruction.wide n ++ back) 1
  rw [Nat.add_zero] at hhigh
  rw [wide?, hhigh, hlow]
  exact congrArg some (join_wide n)

/-- So is one of a single byte. -/
theorem getElem?_append_cons (front back : List UInt8) (n : UInt8) :
    (front ++ ([n] ++ back)).toArray[front.length]? = some n :=
  getElem?_append_add front ([n] ++ back) 0

/-- The operands of an instruction are read back where they stand. -/
theorem operandsAt?_operands (front back : List UInt8) (i : Instruction) :
    operandsAt? (front ++ (i.operands ++ back)).toArray i.op front.length = some i := by
  cases i with
  | constant n | jumpNotTruthy n | jump n | getGlobal n | setGlobal n | makeArray n
  | makeMap n => exact congrArg (Option.map _) (wide?_wide front back n)
  | getLocal n | setLocal n | getBuiltin n | getFree n | call n =>
    exact congrArg (Option.map _) (getElem?_append_cons front back n)
  | makeClosure n k =>
    have hwide := wide?_wide front ([k] ++ back) n
    have hlast := getElem?_append_add front (Instruction.wide n ++ ([k] ++ back)) 2
    rw [Instruction.op, operandsAt?, Instruction.operands, List.append_assoc, hwide, hlast]
    rfl
  | _ => rfl

/-- **An instruction is read back wherever its bytes stand.** -/
theorem decodeAt_encode (front back : List UInt8) (i : Instruction) :
    decodeAt (front ++ (i.encode ++ back)).toArray front.length = some (.ok i) := by
  have hop : (front ++ (i.encode ++ back)).toArray[front.length]? = some i.op.toByte :=
    getElem?_append_cons front (i.operands ++ back) i.op.toByte
  have hrest := operandsAt?_operands (front ++ [i.op.toByte]) back i
  rw [List.append_assoc, List.length_append] at hrest
  rw [decodeAt, hop]
  dsimp only
  rw [Op.ofByte?_toByte]
  dsimp only
  rw [show operandsAt? (front ++ (i.encode ++ back)).toArray i.op (front.length + 1) =
    some i from hrest]

/-- The target of a jump is filled in where its hole stands. -/
theorem patch_hole (front back : List UInt8) (op : UInt8) (m n : UInt16) :
    patch (front ++ (op :: Instruction.wide m ++ back)).toArray (front.length + 1) n =
      (front ++ (op :: Instruction.wide n ++ back)).toArray := by
  apply Array.ext'
  simp only [patch, Instruction.wide, Array.toList_setIfInBounds, List.cons_append,
    List.nil_append]
  rw [List.set_append_right _ _ (Nat.le_add_right _ _), Nat.add_sub_cancel_left,
    List.set_append_right _ _ (by omega)]
  have : front.length + 1 + 1 - front.length = 2 := by omega
  rw [this]
  rfl

end Code

/-! ## Code in its place -/

open Instruction (encodeAll sizeAll)

/-- **Instructions stand in some code at an offset.** -/
def Code.Placed (code : Code) (start : Nat) (is : List Instruction) : Prop :=
  ∃ front back, code = (encodeAll (front ++ (is ++ back))).toArray ∧ start = sizeAll front

namespace Code.Placed

variable {code : Code} {start : Nat} {is js : List Instruction} {i : Instruction}

/-- Instructions stand at the beginning of their own bytes. -/
theorem all (is : List Instruction) : Placed (encodeAll is).toArray 0 is :=
  ⟨[], [], by rw [List.nil_append, List.append_nil], rfl⟩

/-- The first part of instructions that stand somewhere stands there. -/
theorem left (h : code.Placed start (is ++ js)) : code.Placed start is := by
  obtain ⟨front, back, hcode, hstart⟩ := h
  exact ⟨front, js ++ back, by rw [hcode, List.append_assoc], hstart⟩

/-- The second part stands behind it. -/
theorem right (h : code.Placed start (is ++ js)) : code.Placed (start + sizeAll is) js := by
  obtain ⟨front, back, hcode, hstart⟩ := h
  refine ⟨front ++ is, back, ?_, ?_⟩
  · rw [hcode, List.append_assoc, List.append_assoc]
  · rw [Instruction.sizeAll_append, hstart]

/-- What comes after an instruction stands behind it. This is how a run goes
on. -/
theorem tail (h : code.Placed start (i :: is)) : code.Placed (start + i.size) is :=
  (show code.Placed start ([i] ++ is) from h).right

/-- Instructions are read back where they begin. -/
theorem decodeAt (h : code.Placed start (i :: is)) : code.decodeAt start = some (.ok i) := by
  obtain ⟨front, back, rfl, rfl⟩ := h
  rw [List.cons_append, Instruction.encodeAll_append, Instruction.encodeAll_cons,
    ← Instruction.length_encodeAll]
  exact Code.decodeAt_encode _ _ _

end Code.Placed

/-- Past the last instruction there is nothing to read. -/
theorem Instruction.decodeAt_sizeAll (is : List Instruction) :
    Code.decodeAt (encodeAll is).toArray (sizeAll is) = none := by
  rw [Code.decodeAt, List.getElem?_toArray,
    List.getElem?_eq_none (Nat.le_of_eq (length_encodeAll is))]

/-- What is read after some instructions is the next instruction. -/
theorem Instruction.eq_cons_of_decodeAt {front back : List Instruction} {i : Instruction}
    (h : Code.decodeAt (encodeAll (front ++ back)).toArray (sizeAll front) = some (.ok i)) :
    ∃ rest, back = i :: rest := by
  cases back with
  | nil =>
    rw [List.append_nil, decodeAt_sizeAll] at h
    cases h
  | cons j rest =>
    have hj := (Code.Placed.all (front ++ j :: rest)).right.decodeAt
    rw [Nat.zero_add, h] at hj
    cases hj
    exact ⟨rest, rfl⟩

/-- **Bytes are those of one list of instructions only**: if the bytes of some
instructions begin with those of others, the instructions do, too. -/
theorem Instruction.prefix_of_encodeAll {is js : List Instruction}
    (h : encodeAll is <+: encodeAll js) : is <+: js := by
  induction is generalizing js with
  | nil => exact List.nil_prefix
  | cons i is ih =>
    obtain ⟨back, hback⟩ := h
    rw [encodeAll_cons, List.append_assoc] at hback
    have hi := Code.decodeAt_encode [] (encodeAll is ++ back) i
    rw [List.nil_append, hback] at hi
    obtain ⟨rest, rfl⟩ := @eq_cons_of_decodeAt [] js i hi
    rw [encodeAll_cons, List.append_cancel_left_eq] at hback
    exact List.cons_prefix_cons.2 ⟨rfl, ih ⟨back, hback⟩⟩

/-- **Bytes determine the instructions** that they were made of. So instructions
may be compared by their code. -/
theorem Instruction.eq_of_encodeAll {is js : List Instruction}
    (h : (encodeAll is).toArray = (encodeAll js).toArray) : is = js := by
  have heq : encodeAll is = encodeAll js := congrArg Array.toList h
  exact (prefix_of_encodeAll (heq ▸ List.prefix_refl _)).eq_of_length_le
    (prefix_of_encodeAll (heq ▸ List.prefix_refl _)).length_le

/-! ## Code of any bytes -/

namespace Code

variable {code : Code} {offset : Nat}

/-- An operand of two bytes cannot be read if the code ends before its second
byte. -/
theorem wide?_eq_none_iff : code.wide? offset = none ↔ code.size < offset + 2 := by
  unfold wide?
  cases hhigh : code[offset]? with
  | none => exact iff_of_true rfl (by have := Array.getElem?_eq_none_iff.1 hhigh; omega)
  | some high =>
    cases hlow : code[offset + 1]? with
    | none => exact iff_of_true rfl (by have := Array.getElem?_eq_none_iff.1 hlow; omega)
    | some low =>
      have := (Array.getElem?_eq_some_iff.1 hlow).1
      exact iff_of_false nofun (by omega)

/-- Nothing is read only beyond the end of code. Bytes that are no instruction
are answered by an error instead. -/
theorem decodeAt_eq_none_iff : code.decodeAt offset = none ↔ code.size ≤ offset := by
  rw [← Array.getElem?_eq_none_iff]
  unfold decodeAt
  split
  · next h => exact iff_of_true rfl h
  · next h =>
    refine iff_of_false ?_ (by rw [h]; exact nofun)
    split
    · exact nofun
    · split <;> exact nofun

/-- The operands of an opcode are there if and only if the code is long enough
for them. -/
theorem operandsAt?_eq_none_iff {op : Op} (h : offset < code.size) :
    code.operandsAt? op (offset + 1) = none ↔ code.size < offset + op.size := by
  cases op with
  | constant | jumpNotTruthy | jump | getGlobal | setGlobal | makeArray | makeMap =>
    exact Option.map_eq_none_iff.trans wide?_eq_none_iff
  | getLocal | setLocal | getBuiltin | getFree | call =>
    exact Option.map_eq_none_iff.trans (Array.getElem?_eq_none_iff.trans Nat.lt_succ_iff.symm)
  | makeClosure =>
    show _ ↔ code.size < offset + 4
    unfold operandsAt?
    cases hwide : code.wide? (offset + 1) with
    | none => exact iff_of_true rfl (by have := wide?_eq_none_iff.1 hwide; omega)
    | some index =>
      cases hlast : code[offset + 1 + 2]? with
      | none => exact iff_of_true rfl (by have := Array.getElem?_eq_none_iff.1 hlast; omega)
      | some captured =>
        have := (Array.getElem?_eq_some_iff.1 hlast).1
        exact iff_of_false nofun (by omega)
  | pop | add | sub | mul | div | pushTrue | pushFalse | pushNull | equal | notEqual | greaterThan
  | negate | bang | currentClosure | index | returnValue | returnNull =>
    exact ⟨nofun, fun hshort => absurd h (Nat.not_lt.2 (Nat.le_of_lt_succ hshort))⟩

end Code

end StackScript
