import StackScript.Proofs.Code.Decoding
import StackScript.Proofs.Text.Bytes

/-!
# A listing determines the code

The listing of some code has a line for each instruction: its offset, a space,
the name of its opcode, and its operands as decimal numbers, a space before each
of them and for some opcodes a sign before the first.

Nothing of this is lost. No line has a line feed in it, so the lines can be cut
apart again. An offset has no space in it, nor has the name of an opcode, so an
instruction's text is what follows the first space, and the name is what
precedes the next. The name tells the opcode, although some names begin with
others (`Return` and `ReturnValue`), and with the opcode the sign is known. The
numbers are runs of digits. So the text of an instruction is that of no other
instruction (`Instruction.eq_of_text`), and code that can be read to its end is
the bytes of its instructions.

Main statement: `Code.listing_determines_code`.
-/

namespace StackScript

open Instruction (encodeAll sizeAll offsets)

/-! ## Decimal numbers -/

/-- **The decimal digits of a number, filled with zeros** up to a width. -/
structure ZeroPadded (width n : Nat) (digits : List Char) : Prop where
  /-- There are digits only. -/
  isDigit : ∀ c ∈ digits, c.isDigit = true
  /-- They spell the number. -/
  value : Nat.ofDigitChars 10 digits 0 = n
  /-- There are no more of them than the number or the width needs. -/
  length : digits.length = max width (Nat.toDigits 10 n).length

theorem isDigit_of_mem_toDigits {n : Nat} {c : Char} (h : c ∈ Nat.toDigits 10 n) :
    c.isDigit = true :=
  Nat.isDigit_of_mem_toDigits (by decide) (by decide) h

/-- Decimal digits tell the number. -/
theorem toDigits_inj {m n : Nat} (h : Nat.toDigits 10 m = Nat.toDigits 10 n) : m = n := by
  rw [← @Nat.ofDigitChars_ten_toDigits m, h, Nat.ofDigitChars_ten_toDigits]

/-- An offset is printed in this form, whatever the width. It may be longer than
the width, and is not cut off then. -/
theorem zeroPadded_column (width n : Nat) :
    ZeroPadded width n (column width '0' (toString n)).toList := by
  have hcolumn : (column width '0' (toString n)).toList =
      List.replicate (width - (Nat.toDigits 10 n).length) '0' ++ Nat.toDigits 10 n := by
    simp [column, ← String.length_toList]
  rw [hcolumn]
  refine ⟨fun c hc => ?_, ?_, ?_⟩
  · rcases List.mem_append.1 hc with hfill | hdigit
    · rw [List.eq_of_mem_replicate hfill]
      rfl
    · exact isDigit_of_mem_toDigits hdigit
  · rw [Nat.ofDigitChars_append, Nat.ofDigitChars_replicate_zero, Nat.mul_zero,
      Nat.ofDigitChars_ten_toDigits]
  · rw [List.length_append, List.length_replicate]
    omega

/-- Digits, in any base, are no line feeds. -/
theorem newline_notMem_toDigits {base : Nat} (hbase : 1 < base) (n : Nat) :
    '\n' ∉ Nat.toDigits base n := by
  induction n using Nat.strongRecOn with
  | _ n ih =>
    rw [Nat.toDigits_eq_if hbase]
    split
    · simp
    · next hge =>
      have hfront := ih (n / base) (Nat.div_lt_self (by omega) hbase)
      simp [hfront]

/-! ## The text of an instruction -/

namespace Op

/-- The name of an opcode is made of letters. So it ends where the first space
is, and has no line feed in it. -/
theorem isAlpha_of_mem_name {op : Op} : ∀ c ∈ op.name.toList, c.isAlpha = true := by
  rw [← List.all_eq_true]
  cases op <;> decide +kernel

/-- **The name of an opcode is that of no other.** -/
theorem name_inj {op op' : Op} (h : op.name = op'.name) : op = op' := by
  have hfind : ∀ op : Op, all.find? (fun other => other.name == op.name) = some op := by
    intro op
    cases op <;> decide +kernel
  have hop := hfind op
  rw [h, hfind op'] at hop
  exact (Option.some.inj hop).symm

theorem newline_notMem_name (op : Op) : '\n' ∉ op.name.toList :=
  fun h => absurd (isAlpha_of_mem_name _ h) (by decide)

/-- The sign before the first operand of an opcode. -/
def sign : Op → List Char
  | constant | makeClosure => ['#']
  | jumpNotTruthy | jump => ['@']
  | getGlobal | setGlobal => ['g']
  | getLocal | setLocal => ['l']
  | getFree => ['f']
  | _ => []

theorem newline_notMem_sign (op : Op) : '\n' ∉ op.sign := by
  cases op <;> decide

end Op

namespace Instruction

/-- The operands of an instruction as numbers. -/
def numbers : Instruction → List Nat
  | constant n | jumpNotTruthy n | jump n | getGlobal n | setGlobal n | makeArray n
  | makeMap n => [n.toNat]
  | getLocal n | setLocal n | getBuiltin n | getFree n | call n => [n.toNat]
  | makeClosure n k => [n.toNat, k.toNat]
  | _ => []

/-- The bytes of numbers that take so many bytes each. -/
def bytesOf : (widths numbers : List Nat) → List UInt8
  | 2 :: widths, n :: numbers => wide (UInt16.ofNat n) ++ bytesOf widths numbers
  | 1 :: widths, n :: numbers => UInt8.ofNat n :: bytesOf widths numbers
  | _, _ => []

/-- The bytes of the operands follow from the operands as numbers, and from the
widths that the opcode has for them. -/
theorem operands_eq_bytesOf (i : Instruction) : i.operands = bytesOf i.op.widths i.numbers := by
  cases i <;> simp [operands, numbers, bytesOf, op, Op.widths]

/-- Two instructions with the same bytes are the same, since the bytes can be
read back. -/
theorem encode_inj {i j : Instruction} (h : i.encode = j.encode) : i = j := by
  have hi := Code.decodeAt_encode [] [] i
  rw [h, Code.decodeAt_encode [] [] j] at hi
  cases hi
  rfl

/-- **An instruction is its opcode and the numbers that are its operands.** -/
theorem eq_of_numbers {i j : Instruction} (hop : i.op = j.op) (hnumbers : i.numbers = j.numbers) :
    i = j := by
  apply encode_inj
  rw [encode, encode, operands_eq_bytesOf, operands_eq_bytesOf, hop, hnumbers]

/-- The text of operands: a space before each, and a sign before the first. -/
def numbersText (sign : List Char) : List Nat → List Char
  | [] => []
  | n :: rest => ' ' :: (sign ++ (Nat.toDigits 10 n ++ numbersText [] rest))

/-- If there are operands at all, their text begins with a space. This is where
the name before it ends. -/
theorem head?_numbersText {sign : List Char} {ns : List Nat} :
    ∀ c ∈ (numbersText sign ns).head?, c = ' ' := by
  cases ns <;> simp [numbersText]

/-- **The text of operands tells the operands.** Each is a run of digits, and a
space follows or nothing. -/
theorem numbersText_inj {sign : List Char} {ns ms : List Nat}
    (h : numbersText sign ns = numbersText sign ms) : ns = ms := by
  induction ns generalizing sign ms with
  | nil =>
    cases ms with
    | nil => rfl
    | cons m ms => cases h
  | cons n ns ih =>
    cases ms with
    | nil => cases h
    | cons m ms =>
      have hdigits := List.append_cancel_left (List.cons.inj h).2
      have hend : ∀ {ns}, ∀ c ∈ (numbersText [] ns).head?, c.isDigit = false := by
        intro ns c hc
        rw [head?_numbersText c hc]
        rfl
      obtain ⟨hn, hns⟩ := append_inj_of_run (fun _ => isDigit_of_mem_toDigits)
        (fun _ => isDigit_of_mem_toDigits) hend hend hdigits
      rw [toDigits_inj hn, ih hns]

/-- **The text of an instruction**: a name and numbers. -/
theorem toList_text (i : Instruction) :
    i.text.toList = i.op.name.toList ++ numbersText i.op.sign i.numbers := by
  have hwide : ∀ n : UInt16, (toString n).toList = Nat.toDigits 10 n.toNat :=
    fun _ => Nat.toList_repr
  have hnarrow : ∀ n : UInt8, (toString n).toList = Nat.toDigits 10 n.toNat :=
    fun _ => Nat.toList_repr
  have htext : ∀ text : String, toString text = text := fun _ => rfl
  cases i <;> simp [text, numbers, numbersText, op, Op.sign, hwide, hnarrow, htext]

/-- **The text of an instruction is that of no other.** -/
theorem eq_of_text {i j : Instruction} (h : i.text.toList = j.text.toList) : i = j := by
  rw [toList_text, toList_text] at h
  have hend : ∀ {i : Instruction}, ∀ c ∈ (numbersText i.op.sign i.numbers).head?,
      c.isAlpha = false := by
    intro i c hc
    rw [head?_numbersText c hc]
    rfl
  obtain ⟨hname, hnumbers⟩ :=
    append_inj_of_run Op.isAlpha_of_mem_name Op.isAlpha_of_mem_name hend hend h
  have hop : i.op = j.op := Op.name_inj (String.toList_inj.1 hname)
  rw [hop] at hnumbers
  exact eq_of_numbers hop (numbersText_inj hnumbers)

theorem newline_notMem_numbersText {sign : List Char} (hsign : '\n' ∉ sign) (ns : List Nat) :
    '\n' ∉ numbersText sign ns := by
  induction ns generalizing sign with
  | nil => exact List.not_mem_nil
  | cons n ns ih =>
    simp [numbersText, hsign, newline_notMem_toDigits, ih List.not_mem_nil]

/-- The text of an instruction has no line feed in it. -/
theorem newline_notMem_text (i : Instruction) : '\n' ∉ i.text.toList := by
  rw [toList_text, List.mem_append, not_or]
  exact ⟨i.op.newline_notMem_name, newline_notMem_numbersText i.op.newline_notMem_sign _⟩

end Instruction

/-! ## Lines -/

/-- The line of a listing for what a reader gives. -/
def Reader.line : Except DecodeError (Nat × Instruction) → String
  | .ok (offset, i) => column 4 '0' (toString offset) ++ " " ++ i.text
  | .error e => "ERROR: " ++ e.message

namespace DecodeError

theorem message_invalidOpcode (offset : Nat) (byte : UInt8) : (invalidOpcode offset byte).message =
    "invalid opcode 0x" ++ hexadecimal 2 byte.toNat ++ " at offset " ++ toString offset := rfl

theorem message_truncated (offset : Nat) (op : Op) : (truncated offset op).message =
    "truncated " ++ op.name ++ " instruction at offset " ++ toString offset := rfl

/-- Nor has the message of an error, which is a line of the listing too. -/
theorem newline_notMem_message (e : DecodeError) : '\n' ∉ e.message.toList := by
  cases e with
  | invalidOpcode offset byte =>
    rw [message_invalidOpcode]
    simp [hexadecimal, column, newline_notMem_toDigits]
  | truncated offset op =>
    rw [message_truncated]
    simp [op.newline_notMem_name, newline_notMem_toDigits]

end DecodeError

namespace Code

/-- **A listing has a line for each item that a reader gives.** -/
theorem listingLines_eq {code : Code} {items : List (Except DecodeError (Nat × Instruction))}
    {r : Reader} (h : (Reader.start code).Gives items r) :
    code.listingLines = items.map Reader.line := by
  obtain ⟨is, error, hfound⟩ := Reader.exists_found code 0
  obtain ⟨rfl, -⟩ := h.unique hfound.gives
  rw [listingLines, decode, hfound.decode, Array.empty_append]
  cases error <;> simp [Reader.line]

/-- No line has a line feed in it. -/
theorem newline_notMem_line (item : Except DecodeError (Nat × Instruction)) :
    '\n' ∉ (Reader.line item).toList := by
  cases item with
  | error e => simp [Reader.line, e.newline_notMem_message]
  | ok x =>
    obtain ⟨offset, i⟩ := x
    have hoffset : '\n' ∉ (column 4 '0' (toString offset)).toList :=
      fun h => absurd ((zeroPadded_column 4 offset).isDigit _ h) (by decide)
    simp only [Reader.line, String.toList_append, List.mem_append, not_or]
    exact ⟨⟨hoffset, by decide⟩, i.newline_notMem_text⟩

/-- **A listing can be cut into its lines again.** -/
theorem splitOn_join_lines (lines : List String) (h : ∀ line ∈ lines, '\n' ∉ line.toList) :
    (String.join (lines.map (· ++ "\n"))).toList.splitOn '\n' =
      lines.map String.toList ++ [[]] := by
  rw [String.toList_join]
  induction lines with
  | nil => rfl
  | cons line lines ih =>
    obtain ⟨hline, hlines⟩ := List.forall_mem_cons.1 h
    have hcut := List.splitOn_append_cons_self_of_not_mem hline
      ((lines.map (· ++ "\n")).flatMap String.toList)
    rw [ih hlines] at hcut
    simpa using hcut

/-- **A listing can be cut into its lines again**, one for each instruction.
Behind the last line feed there is nothing. -/
theorem splitOn_listing {code : Code} {items : List (Except DecodeError (Nat × Instruction))}
    {r : Reader} (h : (Reader.start code).Gives items r) :
    code.listing.toList.splitOn '\n' =
      items.map (fun item => (Reader.line item).toList) ++ [[]] := by
  rw [listing, listingLines_eq h, splitOn_join_lines _ fun line hline => ?_, List.map_map]
  · rfl
  · obtain ⟨item, -, rfl⟩ := List.mem_map.1 hline
    exact newline_notMem_line item

/-- The lines of instructions tell the instructions. -/
theorem map_snd_eq_of_lines {xs ys : List (Nat × Instruction)}
    (h : xs.map (fun x => (Reader.line (.ok x)).toList) =
      ys.map fun y => (Reader.line (.ok y)).toList) :
    xs.map (·.2) = ys.map (·.2) := by
  induction xs generalizing ys with
  | nil =>
    cases ys with
    | nil => rfl
    | cons y ys => cases h
  | cons x xs ih =>
    cases ys with
    | nil => cases h
    | cons y ys =>
      obtain ⟨hline, hlines⟩ := List.cons.inj h
      have hdigits : ∀ n, ∀ c ∈ (column 4 '0' (toString n)).toList, c.isDigit = true :=
        fun n => (zeroPadded_column 4 n).isDigit
      have hspace : ∀ i : Instruction, ∀ c ∈ (' ' :: i.text.toList).head?, c.isDigit = false := by
        rintro i c ⟨⟩
        rfl
      have htext := (append_inj_of_run (hdigits x.1) (hdigits y.1) (hspace x.2) (hspace y.2)
        (by simpa [Reader.line] using hline)).2
      rw [List.map_cons, List.map_cons, ih hlines, Instruction.eq_of_text (List.cons.inj htext).2]

/-- Code that can be read to its end is the bytes of what a reader gives. -/
theorem exists_gives_of_error_none {code : Code} (h : code.decode.error = none) : ∃ is r,
    (Reader.start code).Gives ((offsets 0 is).map .ok) r ∧ code = (encodeAll is).toArray := by
  obtain ⟨is, error, hfound⟩ := Reader.exists_found code 0
  obtain rfl : error = none := by rw [← h, decode, hfound.decode]
  obtain ⟨rest, hrest⟩ := hfound.encode
  have hend : code.size ≤ 0 + sizeAll is := decodeAt_eq_none_iff.1 hfound.stop
  have hgives := hfound.gives
  rw [Option.map_none, Option.toList_none, List.append_nil] at hgives
  refine ⟨is, _, hgives, Array.ext' ?_⟩
  rw [List.drop_zero] at hrest
  have hlength : sizeAll is + rest.length = code.size := by
    rw [← Instruction.length_encodeAll, ← List.length_append, hrest, Array.length_toList]
  obtain rfl : rest = [] := List.eq_nil_of_length_eq_zero (by omega)
  rw [← hrest, List.append_nil]

/-- Code that can be read to its end is determined by its listing. -/
theorem eq_of_listing {code code' : Code} (hcode : code.decode.error = none)
    (hcode' : code'.decode.error = none) (h : code.listing = code'.listing) : code = code' := by
  obtain ⟨is, r, hgives, rfl⟩ := exists_gives_of_error_none hcode
  obtain ⟨is', r', hgives', rfl⟩ := exists_gives_of_error_none hcode'
  have hlines := splitOn_listing hgives
  rw [h, splitOn_listing hgives', List.map_map, List.map_map] at hlines
  have hmap := map_snd_eq_of_lines (List.append_cancel_right hlines)
  rw [Instruction.map_snd_offsets, Instruction.map_snd_offsets] at hmap
  rw [hmap]

/-- **A listing determines the code.** Two codes that can be read to their end
and have the same listing are the same bytes. The listing of any code has a
line, ended by a line feed, for each item that a reader gives, and the line of
an instruction begins with its offset, in decimal digits and with zeros before
it up to four, and a space. -/
theorem listing_determines_code :
    (∀ code code' : Code, code.decode.error = none → code'.decode.error = none →
      code.listing = code'.listing → code = code') ∧
    ∀ code : Code, ∃ (items : List (Except DecodeError (Nat × Instruction))) (r : Reader),
      (Reader.start code).Gives items r ∧
      ∃ lines, code.listing.toList.splitOn '\n' = lines ++ [[]] ∧ lines.length = items.length ∧
        ∀ (n offset : Nat) (i : Instruction), items[n]? = some (.ok (offset, i)) → ∃ digits,
          ZeroPadded 4 offset digits ∧ lines[n]? = some (digits ++ ' ' :: i.text.toList) := by
  refine ⟨fun _ _ => eq_of_listing, fun code => ?_⟩
  obtain ⟨is, error, hfound⟩ := Reader.exists_found code 0
  refine ⟨_, _, hfound.gives, _, splitOn_listing hfound.gives, List.length_map _, ?_⟩
  intro n offset i hitem
  refine ⟨_, zeroPadded_column 4 offset, ?_⟩
  rw [List.getElem?_map, hitem]
  simp [Reader.line]

/-- Names that begin with others, signs and plain numbers: bytes, and the same
code written instruction by instruction. -/
theorem listing_determines_code_names :
    let code : Code := #[28, 27, 18, 1, 16, 0, 1, 29, 255, 255, 255]
    let code' :=
      [.returnNull, .returnValue, .getLocal 1, .getGlobal 1, .makeClosure 65535 255].foldl emit #[]
    let text := "0000 Return\n0001 ReturnValue\n0002 GetLocal l1\n" ++
      "0004 GetGlobal g1\n0007 Closure #65535 255\n"
    code.decode.error = none ∧ code'.decode.error = none ∧ code.listing = text ∧
      code'.listing = text ∧ code = code' := by
  intro code code' text
  have hcode : code.decode.error = none := by decide +kernel
  have hcode' : code'.decode.error = none := by decide +kernel
  have htext : code.listing = text := by decide +kernel
  have htext' : code'.listing = text := by decide +kernel
  exact ⟨hcode, hcode', htext, htext',
    listing_determines_code.1 code code' hcode hcode' (htext.trans htext'.symm)⟩

end Code

end StackScript
