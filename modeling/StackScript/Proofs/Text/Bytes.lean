/-!
# Texts and their bytes

Source is text, and it is read as bytes. In UTF-8 a character of ASCII is one
byte, the one of its number, and every other character is made of bytes from
`0x80` on, so that a byte below `0x80` is always a character of its own.

A text is often cut where a **run** of characters of one kind ends: a word where
something else than a letter follows, a number where something else than a digit
does, a line at its line feed.
-/

namespace StackScript

/-! ## Runs -/

section Runs

variable {α : Type} {p : α → Bool} {xs ys rest rest' : List α}

/-- **A run ends where something else follows it.** -/
theorem takeWhile_append_of_run (hxs : ∀ x ∈ xs, p x = true)
    (hrest : ∀ x ∈ rest.head?, p x = false) :
    (xs ++ rest).takeWhile p = xs := by
  rw [List.takeWhile_append_of_pos hxs]
  cases rest with
  | nil => exact List.append_nil xs
  | cons x rest => rw [List.takeWhile_cons, hrest x rfl, if_neg Bool.false_ne_true, List.append_nil]

/-- What is left behind a run begins where the run ends. -/
theorem dropWhile_append_of_run (hxs : ∀ x ∈ xs, p x = true)
    (hrest : ∀ x ∈ rest.head?, p x = false) :
    (xs ++ rest).dropWhile p = rest := by
  rw [List.dropWhile_append_of_pos hxs]
  cases rest with
  | nil => rfl
  | cons x rest => rw [List.dropWhile_cons, hrest x rfl, if_neg Bool.false_ne_true]

/-- Two texts that begin with a run are equal only if the runs are. -/
theorem append_inj_of_run (hxs : ∀ x ∈ xs, p x = true) (hys : ∀ y ∈ ys, p y = true)
    (hrest : ∀ x ∈ rest.head?, p x = false) (hrest' : ∀ x ∈ rest'.head?, p x = false)
    (h : xs ++ rest = ys ++ rest') : xs = ys ∧ rest = rest' := by
  have hrun : xs = ys := by
    rw [← takeWhile_append_of_run hxs hrest, h, takeWhile_append_of_run hys hrest']
  subst hrun
  exact ⟨rfl, List.append_cancel_left h⟩

end Runs

/-! ## Bytes -/

/-- **The bytes of a text** in UTF-8. -/
def utf8 (text : List Char) : List UInt8 := text.flatMap String.utf8EncodeChar

@[simp] theorem utf8_nil : utf8 [] = [] := rfl

@[simp] theorem utf8_cons (c : Char) (text : List Char) :
    utf8 (c :: text) = String.utf8EncodeChar c ++ utf8 text := List.flatMap_cons

@[simp] theorem utf8_append (text text' : List Char) :
    utf8 (text ++ text') = utf8 text ++ utf8 text' :=
  List.flatMap_append

/-- The bytes that a source is read as are those of its characters. -/
theorem toUTF8_eq_utf8 (source : String) : source.toUTF8.data.toList = utf8 source.toList := by
  rw [String.toUTF8_eq_toByteArray, ← String.utf8Encode_toList, List.utf8Encode,
    List.data_toByteArray]
  rfl

/-- **Bytes of a text are read as the text.** -/
theorem fromUTF8?_utf8 (text : List Char) :
    String.fromUTF8? ⟨(utf8 text).toArray⟩ = some (String.ofList text) := by
  have hbytes : (⟨(utf8 text).toArray⟩ : ByteArray) = (String.ofList text).toByteArray := by
    rw [String.toByteArray_ofList, List.utf8Encode]
    exact ByteArray.ext List.data_toByteArray.symm
  rw [hbytes, String.fromUTF8?, dif_pos (String.ofList text).isValidUTF8]
  rfl

/-- A character of ASCII is one byte. -/
theorem utf8EncodeChar_of_lt {c : Char} (h : c.toNat < 0x80) :
    String.utf8EncodeChar c = [UInt8.ofNat c.toNat] := by
  have hle : c.val.toNat ≤ 0x7F := Nat.le_of_lt_succ h
  rw [String.utf8EncodeChar, if_pos hle]
  rfl

/-- The bytes of a character outside ASCII are no characters of ASCII. -/
theorem le_of_mem_utf8EncodeChar {c : Char} {byte : UInt8} (h : 0x80 ≤ c.toNat)
    (hbyte : byte ∈ String.utf8EncodeChar c) : 0x80 ≤ byte := by
  have hnot : ¬c.val.toNat ≤ 0x7F := Nat.not_le.2 h
  rw [String.utf8EncodeChar, if_neg hnot] at hbyte
  rw [UInt8.le_iff_toNat_le]
  split at hbyte
  · simp at hbyte
    rcases hbyte with rfl | rfl <;> simp <;> omega
  · split at hbyte
    · simp at hbyte
      rcases hbyte with rfl | rfl | rfl <;> simp <;> omega
    · simp at hbyte
      rcases hbyte with rfl | rfl | rfl | rfl <;> simp <;> omega

end StackScript
