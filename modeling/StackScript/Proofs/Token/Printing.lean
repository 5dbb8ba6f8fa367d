import StackScript.Proofs.Text.Bytes
import StackScript.Proofs.Token.Tiling

/-!
# Lexing undoes printing

Tokens can be printed in many ways: a number has many literals, and between two
tokens there may be any blanks and comments. `TokenKind.Printed` says which
texts print one token, and `Printing` which texts print a list of them: between
each two stands a separator, which begins with a blank.

The blank is what makes printing safe. Every token of the language but a string
ends where its class of bytes ends, and a blank is of no class: a word does not
become longer before it, a number finds neither a digit nor a point after it,
`=` no second `=`, and `/` no second `/` that would make it a comment. So what a
token is read as does not depend on what comes after the blank (`Lexer.Reads`),
and tokens are read one by one.

Main statement: `lexing_undoes_printing`.
-/

namespace StackScript

/-! ## Printing -/

/-- The characters that separate tokens: space, tab, carriage return and line
feed. -/
def blanks : List Char := [' ', '\t', '\r', '\n']

/-- **What may stand between tokens**: any mix of blanks and of comments, each
with the line feed that ends it. -/
inductive Trivia : List Char → Prop where
  | nil : Trivia []
  | blank {c : Char} {rest : List Char} : c ∈ blanks → Trivia rest → Trivia (c :: rest)
  | comment {text rest : List Char} : '\n' ∉ text → Trivia rest →
      Trivia ('/' :: '/' :: (text ++ '\n' :: rest))

/-- **What is printed between two tokens**: trivia that begin with a blank. -/
def Separator (text : List Char) : Prop := ∃ c rest, text = c :: rest ∧ c ∈ blanks ∧ Trivia rest

/-- **A word**: letters of ASCII, digits and underscores, the first of which is
no digit. -/
def IsWord : List Char → Prop
  | [] => False
  | c :: rest => (c.isAlpha = true ∨ c = '_') ∧ ∀ d ∈ rest, d.isAlphanum = true ∨ d = '_'

instance : DecidablePred IsWord
  | [] => inferInstanceAs (Decidable False)
  | _ :: rest =>
    -- The instance is given, as characters are finite in number and it could run through
    -- all of them.
    haveI := List.decidableBAll (fun d : Char => d.isAlphanum = true ∨ d = '_') rest
    inferInstanceAs (Decidable (_ ∧ _))

/-- **Digits**, one at least. -/
def IsDigits (text : List Char) : Prop := text ≠ [] ∧ ∀ c ∈ text, c.isDigit = true

/-- A character as it is printed in a string. -/
def escape (c : Char) : List Char :=
  if c = '\n' then ['\\', 'n']
  else if c = '\t' then ['\\', 't']
  else if c = '"' then ['\\', '"']
  else if c = '\\' then ['\\', '\\']
  else [c]

namespace TokenKind

/-- The text of a token that is always the same. -/
def fixedText : TokenKind → Option String
  | letWord => some "let"
  | fnWord => some "fn"
  | trueWord => some "true"
  | falseWord => some "false"
  | ifWord => some "if"
  | elseWord => some "else"
  | returnWord => some "return"
  | assign => some "="
  | plus => some "+"
  | minus => some "-"
  | bang => some "!"
  | star => some "*"
  | slash => some "/"
  | less => some "<"
  | greater => some ">"
  | equal => some "=="
  | notEqual => some "!="
  | comma => some ","
  | semicolon => some ";"
  | colon => some ":"
  | parenOpen => some "("
  | parenClose => some ")"
  | braceOpen => some "\x7b"
  | braceClose => some "\x7d"
  | bracketOpen => some "["
  | bracketClose => some "]"
  | number _ | string _ | identifier _ | eof | error _ => none

/-- **The texts that print a token.** -/
inductive Printed : TokenKind → List Char → Prop where
  | whole {digits : List Char} : IsDigits digits →
      Printed (number (Number.ofDigits (utf8 digits) [])) digits
  | decimal {digits fraction : List Char} : IsDigits digits → IsDigits fraction →
      Printed (number (Number.ofDigits (utf8 digits) (utf8 fraction))) (digits ++ '.' :: fraction)
  | string (value : String) :
      Printed (string value) ('"' :: (value.toList.flatMap escape ++ ['"']))
  | identifier {name : String} : IsWord name.toList → keyword? name = none →
      Printed (identifier name) name.toList
  | fixed {kind : TokenKind} {text : String} : kind.fixedText = some text → Printed kind text.toList

/-- **The tokens that can be printed**: all but errors and the end of the
source, if an identifier is a word that is not reserved and a number is the
value of a literal. -/
def Printable : TokenKind → Prop
  | eof | error _ => False
  | identifier name => IsWord name.toList ∧ keyword? name = none
  | number value => ∃ digits fraction, IsDigits digits ∧ (fraction = [] ∨ IsDigits fraction) ∧
      value = Number.ofDigits (utf8 digits) (utf8 fraction)
  | _ => True

/-- Every token that can be printed has a text. A number may have several: the
shape of its literal is not fixed. -/
theorem Printable.exists_printed {kind : TokenKind} (h : kind.Printable) :
    ∃ text, kind.Printed text := by
  cases kind with
  | eof | error => exact h.elim
  | string value => exact ⟨_, .string value⟩
  | identifier name => exact ⟨_, .identifier h.1 h.2⟩
  | number value =>
    obtain ⟨digits, fraction, hdigits, rfl | hfraction, rfl⟩ := h
    · exact ⟨_, .whole hdigits⟩
    · exact ⟨_, .decimal hdigits hfraction⟩
  | _ => exact ⟨_, .fixed rfl⟩

end TokenKind

/-- **The texts that print tokens** in order, with a separator between each
two. -/
inductive Printing : List TokenKind → List Char → Prop where
  | nil : Printing [] []
  | single {kind : TokenKind} {text : List Char} : kind.Printed text → Printing [kind] text
  | cons {kind next : TokenKind} {kinds : List TokenKind} {text separator rest : List Char} :
      kind.Printed text → Separator separator → Printing (next :: kinds) rest →
      Printing (kind :: next :: kinds) (text ++ (separator ++ rest))

/-- So has every list of such tokens, with a space between each two. The main
statement is therefore about all of them. -/
theorem exists_printing {kinds : List TokenKind} (h : ∀ kind ∈ kinds, kind.Printable) :
    ∃ text, Printing kinds text := by
  induction kinds with
  | nil => exact ⟨[], .nil⟩
  | cons kind kinds ih =>
    obtain ⟨hkind, hkinds⟩ := List.forall_mem_cons.1 h
    obtain ⟨text, htext⟩ := hkind.exists_printed
    obtain ⟨rest, hrest⟩ := ih hkinds
    cases kinds with
    | nil => exact ⟨text, .single htext⟩
    | cons next kinds =>
      have hspace : Separator [' '] := ⟨' ', [], rfl, by decide, .nil⟩
      exact ⟨_, .cons htext hspace hrest⟩

/-! ## Classes of characters and of bytes -/

/-- The bytes of characters of ASCII are in a class if the characters are. -/
theorem forall_mem_utf8 {p : UInt8 → Bool} {text : List Char}
    (h : ∀ c ∈ text, c.toNat < 0x80 ∧ p (UInt8.ofNat c.toNat) = true) :
    ∀ byte ∈ utf8 text, p byte = true := by
  intro byte hbyte
  obtain ⟨c, hc, hbyte⟩ := List.mem_flatMap.1 hbyte
  obtain ⟨hlt, hp⟩ := h c hc
  rw [utf8EncodeChar_of_lt hlt, List.mem_singleton] at hbyte
  rwa [hbyte]

/-- A byte of ASCII in a text is a character of it. -/
theorem exists_mem_of_mem_utf8 {byte : UInt8} {text : List Char} (h : byte ∈ utf8 text)
    (hbyte : byte < 0x80) :
    ∃ c ∈ text, c.toNat < 0x80 ∧ byte = UInt8.ofNat c.toNat := by
  obtain ⟨c, hc, hmem⟩ := List.mem_flatMap.1 h
  by_cases hlt : c.toNat < 0x80
  · rw [utf8EncodeChar_of_lt hlt, List.mem_singleton] at hmem
    exact ⟨c, hc, hlt, hmem⟩
  · exact absurd hbyte (UInt8.not_lt.2 (le_of_mem_utf8EncodeChar (Nat.le_of_not_lt hlt) hmem))

namespace Lexer

/-- A digit is one byte, and the lexer takes this byte for a digit. This and the
next two carry what is said of characters over to bytes. -/
theorem isDigit_ofNat {c : Char} (h : c.isDigit = true) :
    c.toNat < 0x80 ∧ isDigit (UInt8.ofNat c.toNat) = true := by
  have hrange : 48 ≤ c.toNat ∧ c.toNat ≤ 57 := by
    simpa [Char.isDigit, UInt32.le_iff_toNat_le] using h
  simp [isDigit, UInt8.le_iff_toNat_le]
  omega

/-- A letter of ASCII or an underscore is one byte, which may begin a word. -/
theorem isWordStart_ofNat {c : Char} (h : c.isAlpha = true ∨ c = '_') :
    c.toNat < 0x80 ∧ isWordStart (UInt8.ofNat c.toNat) = true := by
  rcases h with hletter | rfl
  · have hclass : c.isAlpha =
        (decide (c.val ≥ 65 ∧ c.val ≤ 90) || (decide (c.val ≥ 97) && decide (c.val ≤ 122))) := rfl
    have hrange : (65 ≤ c.toNat ∧ c.toNat ≤ 90) ∨ (97 ≤ c.toNat ∧ c.toNat ≤ 122) := by
      simpa [hclass, UInt32.le_iff_toNat_le] using hletter
    simp [isWordStart, UInt8.le_iff_toNat_le]
    omega
  · decide

/-- So is any character of a word, and its byte may stand in a word. -/
theorem isWordByte_ofNat {c : Char} (h : c.isAlphanum = true ∨ c = '_') :
    c.toNat < 0x80 ∧ isWordByte (UInt8.ofNat c.toNat) = true := by
  rw [Char.isAlphanum, Bool.or_eq_true, or_right_comm] at h
  rw [isWordByte, Bool.or_eq_true]
  rcases h with hstart | hdigit
  · exact ⟨(isWordStart_ofNat hstart).1, .inl (isWordStart_ofNat hstart).2⟩
  · exact ⟨(isDigit_ofNat hdigit).1, .inr (isDigit_ofNat hdigit).2⟩

/-- There are four blanks, and each is a single byte. -/
theorem isBlank_iff {byte : UInt8} :
    isBlank byte = true ↔ byte = 0x20 ∨ byte = 0x09 ∨ byte = 0x0D ∨ byte = 0x0A := by
  simp [isBlank, or_assoc]

/-- **A class of bytes with no blank in it.** -/
theorem eq_false_of_isBlank {p : UInt8 → Bool}
    (h : p 0x20 = false ∧ p 0x09 = false ∧ p 0x0D = false ∧ p 0x0A = false) {byte : UInt8}
    (hbyte : isBlank byte = true) : p byte = false := by
  obtain ⟨hspace, htab, hreturn, hfeed⟩ := h
  rcases isBlank_iff.1 hbyte with rfl | rfl | rfl | rfl <;> assumption

/-! ## What a token is read as -/

/-- **What may follow a token**: nothing, or a blank. -/
def Stops (rest : List UInt8) : Prop := ∀ byte ∈ rest.head?, isBlank byte = true

/-- What follows a token does not begin with a byte that is no blank: with a
second `=` or `/`, say. -/
theorem Stops.head?_ne {rest : List UInt8} (h : Stops rest) (byte : UInt8)
    (hbyte : isBlank byte = false) :
    rest.head? ≠ some byte := by
  intro heq
  rw [h byte heq] at hbyte
  cases hbyte

/-- **Bytes that are read as one token** of a kind, whatever follows them after
a blank. -/
def Reads (kind : TokenKind) (bytes : List UInt8) : Prop :=
  ∃ first tail, bytes = first :: tail ∧ isBlank first = false ∧ Lexer.kind first tail = kind ∧
    ∀ rest, Stops rest → (first = 0x2F → (tail ++ rest).head? ≠ some 0x2F) ∧
      extent first (tail ++ rest) = tail.length

/-! ### Words -/

/-- A byte that begins a word begins nothing else: no string, number, blank or
comment. So the lexer takes it for the beginning of a word. -/
theorem not_of_isWordStart {first : UInt8} (h : isWordStart first = true) :
    first ≠ quote ∧ isDigit first = false ∧ isBlank first = false ∧ first ≠ 0x2F := by
  simp only [isWordStart, quote, isDigit, isBlank, ne_eq, Bool.or_eq_true, Bool.and_eq_true,
    Bool.and_eq_false_iff, Bool.or_eq_false_iff, decide_eq_true_eq, decide_eq_false_iff_not,
    beq_iff_eq, beq_eq_false_iff_ne, UInt8.le_iff_toNat_le, ← UInt8.toNat_inj] at h ⊢
  simp at h ⊢
  omega

/-- Bytes of a text are decoded to the text. -/
theorem decode_utf8 (text : List Char) : decode (utf8 text) = String.ofList text := by
  rw [decode, fromUTF8?_utf8, Option.getD_some]

/-- **A word is read as the word that it is**: none of its bytes ends it, and a
blank does. -/
theorem reads_word {word : List Char} (h : IsWord word) :
    Reads (wordKind (String.ofList word)) (utf8 word) := by
  cases word with
  | nil => exact h.elim
  | cons c rest =>
    obtain ⟨hlt, hstart⟩ := isWordStart_ofNat h.1
    have hrest : ∀ byte ∈ utf8 rest, isWordByte byte = true :=
      forall_mem_utf8 fun d hd => isWordByte_ofNat (h.2 d hd)
    have hdecode := decode_utf8 (c :: rest)
    rw [utf8_cons, utf8EncodeChar_of_lt hlt, List.singleton_append] at hdecode ⊢
    generalize UInt8.ofNat c.toNat = first at hstart hdecode ⊢
    obtain ⟨hquote, hdigit, hblank, hslash⟩ := not_of_isWordStart hstart
    refine ⟨first, utf8 rest, rfl, hblank, ?_, fun back hback => ⟨fun heq => (hslash heq).elim, ?_⟩⟩
    · simp [kind, hquote, hdigit, hstart, hdecode]
    · have hrun : (utf8 rest ++ back).takeWhile isWordByte = utf8 rest :=
        takeWhile_append_of_run hrest fun byte hbyte =>
          eq_false_of_isBlank (by decide) (hback byte hbyte)
      simp [extent, hquote, hdigit, hstart, hrun]

/-! ### Numbers -/

/-- A digit begins no string, no blank and no comment. -/
theorem not_of_isDigit {first : UInt8} (h : isDigit first = true) :
    first ≠ quote ∧ isBlank first = false ∧ first ≠ 0x2F := by
  simp only [quote, isDigit, isBlank, ne_eq, Bool.and_eq_true, Bool.or_eq_false_iff,
    decide_eq_true_eq, beq_eq_false_iff_ne, UInt8.le_iff_toNat_le, ← UInt8.toNat_inj] at h ⊢
  simp at h ⊢
  omega

/-- Digits end where none follows. -/
theorem digits_append {run rest : List UInt8} (hrun : ∀ byte ∈ run, isDigit byte = true)
    (hrest : ∀ byte ∈ rest.head?, isDigit byte = false) : digits (run ++ rest) = run :=
  takeWhile_append_of_run hrun hrest

/-- A number is not continued by what may follow it. -/
theorem Stops.not_isDigit {rest : List UInt8} (h : Stops rest) :
    ∀ byte ∈ rest.head?, isDigit byte = false :=
  fun byte hbyte => eq_false_of_isBlank (by decide) (h byte hbyte)

/-- A number without a point ends with its digits. -/
theorem numberExtent_whole {run rest : List UInt8} (hrun : ∀ byte ∈ run, isDigit byte = true)
    (hrest : Stops rest) : numberExtent (run ++ rest) = run.length := by
  rw [numberExtent, digits_append hrun hrest.not_isDigit, List.drop_left]
  split
  · next rest' heq => exact absurd rfl (hrest.head?_ne 0x2E (by decide))
  · rfl

/-- A number with a point ends with the digits after it. -/
theorem numberExtent_decimal {run fraction rest : List UInt8}
    (hrun : ∀ byte ∈ run, isDigit byte = true) (hfraction : ∀ byte ∈ fraction, isDigit byte = true)
    (hne : fraction ≠ []) (hrest : Stops rest) :
    numberExtent (run ++ 0x2E :: (fraction ++ rest)) = run.length + 1 + fraction.length := by
  rw [numberExtent, digits_append hrun (by rintro byte ⟨⟩; rfl), List.drop_left]
  split
  · next rest' heq =>
    obtain rfl : fraction ++ rest = rest' := (List.cons.inj heq).2
    rw [digits_append hfraction hrest.not_isDigit,
      if_neg (Nat.ne_of_gt (List.length_pos_iff.2 hne))]
  · next hno => exact absurd rfl (hno _)

theorem extent_of_isDigit {first : UInt8} (h : isDigit first = true) (rest : List UInt8) :
    extent first rest = numberExtent rest := by
  rw [extent, if_neg (by simpa using (not_of_isDigit h).1), if_pos h]

theorem kind_of_isDigit {first : UInt8} (h : isDigit first = true) (rest : List UInt8) :
    kind first rest = .number (Number.ofDigits (digits (first :: rest))
      ((first :: rest).drop ((digits (first :: rest)).length + 1))) := by
  rw [kind, if_neg (by simpa using (not_of_isDigit h).1), if_pos h]

/-- Digits alone are read as the number that they spell, if no further digit and
no point follow. -/
theorem reads_whole {run : List UInt8} (hne : run ≠ []) (hrun : ∀ byte ∈ run, isDigit byte = true) :
    Reads (.number (Number.ofDigits run [])) run := by
  obtain ⟨first, tail, rfl⟩ := List.exists_cons_of_ne_nil hne
  obtain ⟨hfirst, htail⟩ := List.forall_mem_cons.1 hrun
  obtain ⟨-, hblank, hslash⟩ := not_of_isDigit hfirst
  refine ⟨first, tail, rfl, hblank, ?_, fun rest hrest => ⟨fun heq => (hslash heq).elim, ?_⟩⟩
  · have hdigits := @digits_append (first :: tail) [] hrun (by simp)
    rw [List.append_nil] at hdigits
    rw [kind_of_isDigit hfirst, hdigits, List.drop_eq_nil_of_le (Nat.le_succ _)]
  · rw [extent_of_isDigit hfirst, numberExtent_whole htail hrest]

/-- Digits, a point and digits are read as one number. A point is part of a
number only before a digit. -/
theorem reads_decimal {run fraction : List UInt8} (hne : run ≠ [])
    (hrun : ∀ byte ∈ run, isDigit byte = true) (hne' : fraction ≠ [])
    (hfraction : ∀ byte ∈ fraction, isDigit byte = true) :
    Reads (.number (Number.ofDigits run fraction)) (run ++ 0x2E :: fraction) := by
  obtain ⟨first, tail, rfl⟩ := List.exists_cons_of_ne_nil hne
  obtain ⟨hfirst, htail⟩ := List.forall_mem_cons.1 hrun
  obtain ⟨-, hblank, hslash⟩ := not_of_isDigit hfirst
  refine ⟨first, tail ++ 0x2E :: fraction, rfl, hblank, ?_,
    fun rest hrest => ⟨fun heq => (hslash heq).elim, ?_⟩⟩
  · have hdigits := @digits_append (first :: tail) (0x2E :: fraction) hrun (by rintro byte ⟨⟩; rfl)
    rw [kind_of_isDigit hfirst, ← List.cons_append, hdigits, List.drop_length_add_append]
    rfl
  · rw [extent_of_isDigit hfirst, List.append_assoc, List.cons_append,
      numberExtent_decimal htail hfraction hne' hrest]
    simp
    omega

/-! ### Strings -/

/-- Bytes that neither end a string nor begin an escape. -/
def Plain (bytes : List UInt8) : Prop := ∀ byte ∈ bytes, byte ≠ quote ∧ byte ≠ backslash

/-- Plain bytes of a string are skipped on the way to its end. -/
theorem stringExtent_plain {bytes : List UInt8} (h : Plain bytes) (count : Nat)
    (rest : List UInt8) :
    stringExtent count (bytes ++ rest) = stringExtent (count + bytes.length) rest := by
  induction bytes generalizing count with
  | nil => rfl
  | cons byte bytes ih =>
    obtain ⟨⟨hquote, hbackslash⟩, hbytes⟩ := List.forall_mem_cons.1 h
    rw [List.cons_append, stringExtent.eq_def]
    dsimp only
    rw [if_neg (by simpa using hquote), if_neg (by simpa using hbackslash),
      ih hbytes, List.length_cons, Nat.add_assoc, Nat.add_comm 1]

/-- Plain bytes of a string are its contents as they stand. -/
theorem contents_plain {bytes : List UInt8} (h : Plain bytes) (found : Array UInt8)
    (rest : List UInt8) :
    contents found (bytes ++ rest) = contents (found ++ bytes.toArray) rest := by
  induction bytes generalizing found with
  | nil => rw [List.nil_append, Array.append_empty]
  | cons byte bytes ih =>
    obtain ⟨⟨hquote, hbackslash⟩, hbytes⟩ := List.forall_mem_cons.1 h
    rw [List.cons_append, contents.eq_def]
    dsimp only
    rw [if_neg (by simpa using hquote), if_neg (by simpa using hbackslash),
      ih hbytes]
    simp

/-- An escape is two bytes long, so a quote in it does not end the string. -/
theorem stringExtent_escaped {code byte : UInt8} (h : escaped? code = some byte) (count : Nat)
    (rest : List UInt8) :
    stringExtent count (backslash :: code :: rest) = stringExtent (count + 2) rest := by
  rw [stringExtent, if_neg (by decide), if_pos (by decide), if_pos (by rw [h]; rfl)]

/-- An escape stands for a single byte of the contents. -/
theorem contents_escaped {code byte : UInt8} (h : escaped? code = some byte) (found : Array UInt8)
    (rest : List UInt8) :
    contents found (backslash :: code :: rest) = contents (found.push byte) rest := by
  rw [contents, if_neg (by decide), if_pos (by decide), h]

/-- The bytes of a character that is neither a quote nor a backslash. -/
theorem plain_utf8EncodeChar {c : Char} (hquote : c ≠ '"') (hbackslash : c ≠ '\\') :
    Plain (String.utf8EncodeChar c) := by
  intro byte hbyte
  by_cases hlt : c.toNat < 0x80
  · rw [utf8EncodeChar_of_lt hlt, List.mem_singleton] at hbyte
    subst hbyte
    have hne : ∀ d : Char, d.toNat < 0x80 → c ≠ d → UInt8.ofNat c.toNat ≠ UInt8.ofNat d.toNat := by
      intro d hd hcd heq
      refine hcd (Char.toNat_inj.1 ?_)
      have hnat := congrArg UInt8.toNat heq
      simp at hnat
      omega
    exact ⟨hne '"' (by decide) hquote, hne '\\' (by decide) hbackslash⟩
  · have hle := le_of_mem_utf8EncodeChar (Nat.le_of_not_lt hlt) hbyte
    constructor <;> rintro rfl <;> exact absurd hle (by decide)

/-- **A character is printed as itself or as an escape that stands for it.** -/
theorem escape_cases (c : Char) :
    (escape c = [c] ∧ Plain (String.utf8EncodeChar c)) ∨
    ∃ code byte, utf8 (escape c) = [backslash, code] ∧ escaped? code = some byte ∧
      String.utf8EncodeChar c = [byte] := by
  by_cases hfeed : c = '\n'
  · exact .inr ⟨0x6E, 0x0A, by subst hfeed; decide, rfl, by subst hfeed; decide⟩
  by_cases htab : c = '\t'
  · exact .inr ⟨0x74, 0x09, by subst htab; decide, rfl, by subst htab; decide⟩
  by_cases hquote : c = '"'
  · exact .inr ⟨quote, quote, by subst hquote; decide, rfl, by subst hquote; decide⟩
  by_cases hbackslash : c = '\\'
  · exact .inr ⟨backslash, backslash, by subst hbackslash; decide, rfl, by subst hbackslash; decide⟩
  · refine .inl ⟨?_, plain_utf8EncodeChar hquote hbackslash⟩
    rw [escape, if_neg hfeed, if_neg htab, if_neg hquote, if_neg hbackslash]

/-- The extent of a printed string, after any part of it. -/
theorem stringExtent_print (text : List Char) (count : Nat) (rest : List UInt8) :
    stringExtent count (utf8 (text.flatMap escape) ++ quote :: rest) =
      count + (utf8 (text.flatMap escape)).length + 1 := by
  induction text generalizing count with
  | nil =>
    rw [List.flatMap_nil, utf8_nil, List.nil_append, stringExtent.eq_def]
    rfl
  | cons c text ih =>
    rw [List.flatMap_cons, utf8_append, List.append_assoc]
    rcases escape_cases c with ⟨hself, hplain⟩ | ⟨code, byte, hescape, hcode, -⟩
    · rw [hself, utf8_cons, utf8_nil, List.append_nil, stringExtent_plain hplain, ih,
        List.length_append]
      omega
    · rw [hescape, List.cons_append, List.singleton_append, stringExtent_escaped hcode, ih,
        List.cons_append, List.singleton_append, List.length_cons, List.length_cons]
      omega

/-- **The contents of a printed string** are the bytes of the text. -/
theorem contents_print (text : List Char) (found : Array UInt8) :
    contents found (utf8 (text.flatMap escape) ++ [quote]) =
      .ok (found ++ (utf8 text).toArray) := by
  induction text generalizing found with
  | nil =>
    rw [List.flatMap_nil, utf8_nil, List.nil_append, contents.eq_def, Array.append_empty]
    rfl
  | cons c text ih =>
    rw [List.flatMap_cons, utf8_append, List.append_assoc, utf8_cons]
    rcases escape_cases c with ⟨hself, hplain⟩ | ⟨code, byte, hescape, hcode, hbyte⟩
    · rw [hself, utf8_cons, utf8_nil, List.append_nil, contents_plain hplain, ih]
      simp
    · rw [hescape, List.cons_append, List.singleton_append, contents_escaped hcode, ih, hbyte]
      simp

/-- **A string is read as the characters that have been escaped**, whatever they
are. Nothing has to be asked of what follows, since the quote ends the
string. -/
theorem reads_string (value : String) :
    Reads (.string value) (utf8 ('"' :: (value.toList.flatMap escape ++ ['"']))) := by
  have hbytes : utf8 ('"' :: (value.toList.flatMap escape ++ ['"'])) =
      quote :: (utf8 (value.toList.flatMap escape) ++ [quote]) := by
    rw [utf8_cons, utf8_append, utf8EncodeChar_of_lt (c := '"') (by decide)]
    rfl
  refine ⟨quote, utf8 (value.toList.flatMap escape) ++ [quote], hbytes, by decide, ?_,
    fun rest _ => ⟨?_, ?_⟩⟩
  · rw [kind, if_pos (by decide), stringKind, contents_print, Array.empty_append]
    dsimp only
    rw [fromUTF8?_utf8, String.ofList_toList]
  · intro heq
    exact absurd heq (by decide)
  · rw [extent, if_pos (by decide), List.append_assoc, List.singleton_append, stringExtent_print,
      List.length_append]
    simp

/-! ### Marks -/

/-- What has to hold of a byte for its token to be a mark. -/
def IsMark (byte : UInt8) : Prop :=
  byte ≠ quote ∧ isDigit byte = false ∧ isWordStart byte = false ∧ isBlank byte = false

instance (byte : UInt8) : Decidable (IsMark byte) := inferInstanceAs (Decidable (_ ∧ _ ∧ _ ∧ _))

/-- The kind of a mark depends on whether a second byte belongs to it. -/
theorem kind_of_isMark {byte : UInt8} {mark : TokenKind} (h : IsMark byte)
    (hmark : mark? byte = some mark) (rest : List UInt8) :
    kind byte rest = if rest.isEmpty then mark else (doubled? mark).getD mark := by
  rw [kind, if_neg (by simpa using h.1), if_neg (by simp [h.2.1]), if_neg (by simp [h.2.2.1]),
    hmark]

/-- A mark has a second byte if it can be doubled and an `=` follows. -/
theorem extent_of_isMark {byte : UInt8} {mark : TokenKind} (h : IsMark byte)
    (hmark : mark? byte = some mark) (rest : List UInt8) :
    extent byte rest = if (doubled? mark).isSome && rest.head? == some 0x3D then 1 else 0 := by
  rw [extent, if_neg (by simpa using h.1), if_neg (by simp [h.2.1]), if_neg (by simp [h.2.2.1]),
    hmark]

/-- A mark before a blank is a single mark, even if it can be doubled. -/
theorem reads_mark {byte : UInt8} {mark : TokenKind} (h : IsMark byte)
    (hmark : mark? byte = some mark) :
    Reads mark [byte] := by
  refine ⟨byte, [], rfl, h.2.2.2, kind_of_isMark h hmark [], fun rest hrest => ⟨fun _ => ?_, ?_⟩⟩
  · exact hrest.head?_ne 0x2F (by decide)
  · rw [extent_of_isMark h hmark, List.nil_append,
      if_neg (by simp [hrest.head?_ne 0x3D (by decide)])]
    rfl

/-- A mark with an `=` after it is the doubled mark, if there is one. -/
theorem reads_doubled {byte : UInt8} {mark kind : TokenKind} (h : IsMark byte)
    (hmark : mark? byte = some mark) (hdoubled : doubled? mark = some kind) :
    Reads kind [byte, 0x3D] := by
  refine ⟨byte, [0x3D], rfl, h.2.2.2, ?_, fun rest _ => ⟨fun _ => ?_, ?_⟩⟩
  · rw [kind_of_isMark h hmark, hdoubled]
    rfl
  · exact fun heq => absurd (Option.some.inj heq) (by decide)
  · rw [extent_of_isMark h hmark, hdoubled]
    rfl

/-- A token whose text is always the same is read from it. -/
theorem reads_fixed {kind : TokenKind} {text : String} (h : kind.fixedText = some text) :
    Reads kind (utf8 text.toList) := by
  have hword : ∀ {kind text}, IsWord text.toList → TokenKind.keyword? text = some kind →
      Reads kind (utf8 text.toList) := by
    intro kind text hword hkeyword
    have hreads := reads_word hword
    rwa [String.ofList_toList, wordKind, hkeyword, Option.getD_some] at hreads
  cases kind with
  | letWord | fnWord | trueWord | falseWord | ifWord | elseWord | returnWord =>
    cases h
    exact hword (by decide) rfl
  | equal | notEqual =>
    cases h
    exact reads_doubled (by decide) rfl rfl
  | number | string | identifier | eof | error => cases h
  | _ =>
    cases h
    exact reads_mark (by decide) rfl

/-- **A printed token is read as what was printed.** -/
theorem reads_of_printed {kind : TokenKind} {text : List Char} (h : kind.Printed text) :
    Reads kind (utf8 text) := by
  have hdigits : ∀ {text}, IsDigits text →
      utf8 text ≠ [] ∧ ∀ byte ∈ utf8 text, isDigit byte = true := by
    rintro text ⟨hne, hall⟩
    refine ⟨?_, forall_mem_utf8 fun c hc => isDigit_ofNat (hall c hc)⟩
    obtain ⟨c, rest, rfl⟩ := List.exists_cons_of_ne_nil hne
    simp [String.utf8EncodeChar_ne_nil]
  cases h with
  | whole h => exact reads_whole (hdigits h).1 (hdigits h).2
  | decimal h h' =>
    rw [utf8_append]
    exact reads_decimal (hdigits h).1 (hdigits h).2 (hdigits h').1 (hdigits h').2
  | string value => exact reads_string value
  | identifier hword hkeyword =>
    have hreads := reads_word hword
    rwa [String.ofList_toList, wordKind, hkeyword, Option.getD_none] at hreads
  | fixed h => exact reads_fixed h

/-! ## Tokens one after another -/

/-- A blank is printed as a single byte that the lexer skips. -/
theorem exists_isBlank {c : Char} (h : c ∈ blanks) :
    ∃ byte, String.utf8EncodeChar c = [byte] ∧ isBlank byte = true := by
  simp [blanks] at h
  rcases h with rfl | rfl | rfl | rfl
  · exact ⟨0x20, by decide, rfl⟩
  · exact ⟨0x09, by decide, rfl⟩
  · exact ⟨0x0D, by decide, rfl⟩
  · exact ⟨0x0A, by decide, rfl⟩

/-- No byte of a text without a line feed is a line feed: bytes of longer
characters are no ASCII. So a comment ends where it should. -/
theorem feed_notMem_utf8 {text : List Char} (h : '\n' ∉ text) : 0x0A ∉ utf8 text := by
  intro hmem
  obtain ⟨c, hc, hlt, heq⟩ := exists_mem_of_mem_utf8 hmem (by decide)
  have hnat : c.toNat = '\n'.toNat := by
    have hbyte := congrArg UInt8.toNat heq
    simp at hbyte
    show c.toNat = 10
    omega
  rw [Char.toNat_inj.1 hnat] at hc
  exact h hc

/-- Trivia are a gap, whatever follows them. -/
theorem gap_of_trivia {gap : List Char} (h : Trivia gap) (rest : List UInt8) :
    Gap (utf8 gap) rest := by
  induction h with
  | nil => exact .nil
  | blank hblank _ ih =>
    obtain ⟨byte, hbyte, hblank⟩ := exists_isBlank hblank
    rw [utf8_cons, hbyte]
    exact .blank hblank ih
  | @comment text gap htext _ ih =>
    have hbytes : utf8 ('/' :: '/' :: (text ++ '\n' :: gap)) =
        0x2F :: 0x2F :: (utf8 text ++ 0x0A :: utf8 gap) := by
      simp only [utf8_cons, utf8_append]
      rw [utf8EncodeChar_of_lt (c := '/') (by decide), utf8EncodeChar_of_lt (c := '\n') (by decide)]
      rfl
    rw [hbytes]
    exact .comment (feed_notMem_utf8 htext) (by rintro byte ⟨⟩; rfl) (.blank rfl ih)

/-- A gap is skipped, as far as it goes. -/
theorem triviaExtent_gap {gap rest : List UInt8} (h : Gap gap rest)
    (hrest : triviaExtent false 0 rest = 0) :
    triviaExtent false 0 (gap ++ rest) = gap.length := by
  induction h with
  | nil => exact hrest
  | blank hblank _ ih =>
    rw [List.cons_append, triviaExtent_blank hblank, ih hrest, List.length_cons]
  | @comment text gap rest htext hfeed _ ih =>
    have hline : ∀ byte ∈ text, (byte != 0x0A) = true := by
      intro byte hbyte
      simpa using ne_of_mem_of_not_mem hbyte htext
    have hend : ∀ byte ∈ (gap ++ rest).head?, (byte != 0x0A) = false := by
      intro byte hbyte
      simpa using hfeed byte hbyte
    rw [List.cons_append, List.cons_append, List.append_assoc, triviaExtent_comment,
      takeWhile_append_of_run hline hend, dropWhile_append_of_run hline hend, ih hrest]
    simp

/-- **A token is cut off** after a gap, and reading goes on behind it. -/
theorem tokensFrom_token {gap tail rest : List UInt8} {first : UInt8}
    (hgap : triviaExtent false 0 (gap ++ first :: (tail ++ rest)) = gap.length)
    (hextent : extent first (tail ++ rest) = tail.length) (found : Array Token) (pos : Pos) :
    tokensFrom found pos (gap ++ first :: (tail ++ rest)) =
      tokensFrom
        (found.push ⟨kind first tail, pos.advance gap, (pos.advance gap).advance (first :: tail)⟩)
        ((pos.advance gap).advance (first :: tail)) rest := by
  rw [tokensFrom]
  dsimp only
  rw [hgap, List.take_left]
  split
  · next hdrop =>
    rw [List.drop_left] at hdrop
    cases hdrop
  · next first' rest' hdrop =>
    rw [List.drop_left] at hdrop
    obtain ⟨rfl, rfl⟩ := List.cons.inj hdrop
    rw [hextent, List.take_left, List.drop_left]

/-- The source ends. -/
theorem tokensFrom_nil (found : Array Token) (pos : Pos) :
    tokensFrom found pos [] = found.push ⟨.eof, .point pos⟩ := by
  rw [tokensFrom]
  rfl

/-- Bytes that are read as a token are, behind any trivia. -/
theorem tokensFrom_reads {kind : TokenKind} {gap : List Char} {bytes rest : List UInt8}
    (hgap : Trivia gap) (hbytes : Reads kind bytes) (hrest : Stops rest) (found : Array Token)
    (pos : Pos) :
    ∃ span pos', tokensFrom found pos (utf8 gap ++ (bytes ++ rest)) =
      tokensFrom (found.push ⟨kind, span⟩) pos' rest := by
  obtain ⟨first, tail, rfl, hblank, rfl, hafter⟩ := hbytes
  obtain ⟨hslash, hextent⟩ := hafter rest hrest
  have hskip := triviaExtent_gap (gap_of_trivia hgap _)
    (triviaExtent_token hblank fun h => hslash h.1 h.2)
  exact ⟨_, _, tokensFrom_token hskip hextent found pos⟩

/-- **Printed tokens are read** behind any trivia, after the tokens already
found. -/
theorem map_kind_tokensFrom {kinds : List TokenKind} {text gap : List Char}
    (h : Printing kinds text) (hkinds : kinds ≠ []) (hgap : Trivia gap) (found : Array Token)
    (pos : Pos) :
    (tokensFrom found pos (utf8 gap ++ utf8 text)).toList.map (·.kind) =
      found.toList.map (·.kind) ++ (kinds ++ [.eof]) := by
  -- The trivia before the first token stand for the separator before each of the others.
  induction h generalizing gap found pos with
  | nil => exact absurd rfl hkinds
  | single hkind =>
    have hend : Stops [] := by
      rintro byte ⟨⟩
    obtain ⟨span, pos', heq⟩ := tokensFrom_reads hgap (reads_of_printed hkind) hend found pos
    rw [List.append_nil] at heq
    rw [heq, tokensFrom_nil]
    simp
  | @cons kind next kinds text separator rest hkind hseparator _ ih =>
    obtain ⟨c, back, rfl, hc, hback⟩ := hseparator
    obtain ⟨byte, hbyte, hblank⟩ := exists_isBlank hc
    have hstops : Stops (utf8 (c :: back) ++ utf8 rest) := by
      rw [utf8_cons, hbyte]
      rintro byte' ⟨⟩
      exact hblank
    obtain ⟨span, pos', heq⟩ := tokensFrom_reads hgap (reads_of_printed hkind) hstops found pos
    rw [utf8_append text, utf8_append, heq, ih (List.cons_ne_nil _ _) (.blank hc hback)]
    simp

end Lexer

/-- **Lexing undoes printing.** Tokens other than errors and the end of the
source can be printed, and however they are printed, with trivia that begin with
a blank between each two of them, the text is read as these tokens and then the
end of the source. -/
theorem lexing_undoes_printing (kinds : List TokenKind) :
    ((∀ kind ∈ kinds, kind.Printable) → ∃ text, Printing kinds text) ∧
    ∀ text, Printing kinds text →
      (tokens (String.ofList text)).map (·.kind) = kinds ++ [.eof] := by
  refine ⟨exists_printing, fun text h => ?_⟩
  rw [tokens, toUTF8_eq_utf8, String.toList_ofList]
  cases kinds with
  | nil =>
    cases h
    rw [utf8_nil, Lexer.tokensFrom_nil]
    rfl
  | cons kind kinds =>
    exact Lexer.map_kind_tokensFrom h (List.cons_ne_nil _ _) .nil #[] Pos.origin

/-- A slash before a comment, a comment with a quote in it, escapes and
characters outside ASCII in a string, and a number that ends the source. -/
theorem lexing_undoes_printing_slash :
    let kinds : List TokenKind := [.identifier "let_", .slash, .string "é\n\"\\", .equal,
      .number (Number.ofDigits (utf8 ['3']) (utf8 ['2', '5']))]
    let text := "let_ / // \"é\n\t\"é\\n\\\"\\\\\" == 3.25"
    (∀ kind ∈ kinds, kind.Printable) ∧ Printing kinds text.toList ∧
      (tokens text).map (·.kind) = kinds ++ [.eof] := by
  intro kinds text
  have hword : IsWord "let_".toList ∧ TokenKind.keyword? "let_" = none := ⟨by decide +kernel, rfl⟩
  have hwhole : IsDigits ['3'] := ⟨List.cons_ne_nil _ _, List.all_eq_true.1 rfl⟩
  have hfraction : IsDigits ['2', '5'] := ⟨List.cons_ne_nil _ _, List.all_eq_true.1 rfl⟩
  have hprintable : ∀ kind ∈ kinds, kind.Printable := by
    simp only [kinds, List.forall_mem_cons]
    exact ⟨hword, trivial, trivial, trivial, ⟨_, _, hwhole, .inr hfraction, rfl⟩, by simp⟩
  have hspace : Separator [' '] := ⟨' ', [], rfl, by decide, .nil⟩
  have hcomment : Separator [' ', '/', '/', ' ', '"', 'é', '\n', '\t'] :=
    ⟨' ', _, rfl, by decide,
      @Trivia.comment [' ', '"', 'é'] ['\t'] (by decide) (.blank (by decide) .nil)⟩
  have hslash : TokenKind.Printed .slash "/".toList := .fixed rfl
  have hequal : TokenKind.Printed .equal "==".toList := .fixed rfl
  have hprinting : Printing kinds text.toList := by
    have h := Printing.cons (.identifier hword.1 hword.2) hspace (.cons hslash hcomment
      (.cons (.string "é\n\"\\") hspace
        (.cons hequal hspace (.single (.decimal hwhole hfraction)))))
    exact Eq.subst (motive := Printing kinds) (by decide +kernel) h
  refine ⟨hprintable, hprinting, ?_⟩
  have hkinds := (lexing_undoes_printing kinds).2 text.toList hprinting
  rwa [String.ofList_toList] at hkinds

end StackScript
