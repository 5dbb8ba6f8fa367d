import StackScript.Proofs.Token.Printing

/-!
# Tokens and the characters of the source

Source is cut into tokens by its bytes, and a character outside ASCII has
several of them. A cut is harmless between two characters. Whether it is can be
told from the byte behind it alone: a character begins with the only byte of it
that is no continuation byte (`Lexer.utf8EncodeChar_eq_cons`), so the bytes of a
text can be cut exactly where what follows is `Lexer.Fresh`
(`Lexer.exists_utf8_iff_fresh`). No token has to know how the one before it
ended.

Most tokens end in ASCII, and another character follows a byte of ASCII. A byte
that begins no token takes all continuation bytes with it, so what follows is no
such byte. A string is the exception. Inside of a string characters are kept or
skipped whole, and it ends at a quote or with the source; but it also ends at an
escape that is not known, after the *byte* that follows the backslash. If that
byte begins a longer character, the next token begins inside of the character
and takes the rest of it, and everything is in order again.

Main statement: `tokens_keep_characters_whole`.
-/

namespace StackScript

namespace Lexer

/-! ## Characters and their bytes -/

/-- **A character begins with the only byte of it that continues none**; a
character of one byte is of ASCII. -/
theorem utf8EncodeChar_eq_cons (c : Char) : ∃ lead tail, String.utf8EncodeChar c = lead :: tail ∧
    isContinuation lead = false ∧ (∀ byte ∈ tail, isContinuation byte = true) ∧
      (tail = [] ↔ lead < 0x80) := by
  unfold String.utf8EncodeChar isContinuation
  dsimp only
  generalize c.val.toNat = v
  split
  · exact ⟨_, _, rfl, by simp [UInt8.le_iff_toNat_le, UInt8.lt_iff_toNat_lt]; omega⟩
  · split
    · exact ⟨_, _, rfl, by simp [UInt8.le_iff_toNat_le, UInt8.lt_iff_toNat_lt]; omega⟩
    · split
      · exact ⟨_, _, rfl, by simp [UInt8.le_iff_toNat_le, UInt8.lt_iff_toNat_lt]; omega⟩
      · exact ⟨_, _, rfl, by simp [UInt8.le_iff_toNat_le, UInt8.lt_iff_toNat_lt]; omega⟩

/-- **Bytes that do not go on with a character**: there are none, or the first
begins one. -/
def Fresh (bytes : List UInt8) : Prop := ∀ byte ∈ bytes.head?, isContinuation byte = false

theorem fresh_nil : Fresh [] := nofun

theorem fresh_cons {byte : UInt8} {bytes : List UInt8} :
    Fresh (byte :: bytes) ↔ isContinuation byte = false := by
  simp [Fresh]

theorem fresh_utf8 (text : List Char) : Fresh (utf8 text) := by
  cases text with
  | nil => exact fresh_nil
  | cons c text =>
    obtain ⟨lead, tail, hc, hlead, -⟩ := utf8EncodeChar_eq_cons c
    rw [utf8_cons, hc]
    exact fresh_cons.2 hlead

/-- **Bytes of a text can be cut between two characters exactly where no
character goes on.** -/
theorem exists_utf8_iff_fresh {text : List Char} {front back : List UInt8}
    (h : utf8 text = front ++ back) :
    (∃ text₁ text₂, text = text₁ ++ text₂ ∧ front = utf8 text₁ ∧ back = utf8 text₂) ↔
      Fresh back := by
  constructor
  · rintro ⟨text₁, text₂, -, -, rfl⟩
    exact fresh_utf8 text₂
  · intro hfresh
    induction text generalizing front with
    | nil =>
      obtain ⟨rfl, rfl⟩ := List.append_eq_nil_iff.1 h.symm
      exact ⟨[], [], rfl, rfl, rfl⟩
    | cons c text ih =>
      rw [utf8_cons] at h
      rcases List.append_eq_append_iff.1 h with ⟨front', rfl, hrest⟩ | ⟨tail', hc, hback⟩
      · obtain ⟨text₁, text₂, rfl, rfl, rfl⟩ := ih hrest
        exact ⟨c :: text₁, text₂, rfl, (utf8_cons c text₁).symm, rfl⟩
      · obtain ⟨lead, tail, hbytes, -, htail, -⟩ := utf8EncodeChar_eq_cons c
        cases front with
        | nil => exact ⟨[], c :: text, rfl, rfl, by rw [utf8_cons, h]; rfl⟩
        | cons byte front =>
          -- What is cut off the bytes of the character behind its first continues it.
          rw [hbytes] at hc
          obtain ⟨rfl, rfl⟩ := List.cons.inj hc
          cases tail' with
          | nil => exact ⟨[c], text, rfl, by rw [utf8_cons, hbytes]; simp, hback⟩
          | cons byte' tail' =>
            rw [hback, List.cons_append, fresh_cons, htail byte' (by simp)] at hfresh
            cases hfresh

/-- What follows the first byte of a character: another character if the byte is
of ASCII, and else the rest of it. -/
theorem fresh_iff_lt {text : List Char} {front back : List UInt8} {byte : UInt8}
    (h : utf8 text = front ++ byte :: back) (hbyte : isContinuation byte = false) :
    Fresh back ↔ byte < 0x80 := by
  obtain ⟨text₁, text₂, -, -, hback⟩ := (exists_utf8_iff_fresh h).2 (fresh_cons.2 hbyte)
  cases text₂ with
  | nil => cases hback
  | cons c text₂ =>
    obtain ⟨lead, tail, hc, -, htail, hascii⟩ := utf8EncodeChar_eq_cons c
    rw [utf8_cons, hc, List.cons_append] at hback
    obtain ⟨rfl, rfl⟩ := List.cons.inj hback
    rw [← hascii]
    cases tail with
    | nil => exact iff_of_true (fresh_utf8 text₂) rfl
    | cons next tail =>
      refine iff_of_false ?_ (List.cons_ne_nil _ _)
      rw [List.cons_append, fresh_cons, htail next List.mem_cons_self]
      exact Bool.noConfusion

theorem isContinuation_of_lt {byte : UInt8} (h : byte < 0x80) : isContinuation byte = false := by
  simp [isContinuation, UInt8.le_iff_toNat_le, UInt8.lt_iff_toNat_lt] at h ⊢
  omega

/-- Where no character goes on there is nothing to take that continues one. -/
theorem takeWhile_eq_nil_of_fresh {bytes : List UInt8} (h : Fresh bytes) :
    bytes.takeWhile isContinuation = [] :=
  takeWhile_append_of_run (List.forall_mem_nil _) h

/-- A character of ASCII is followed by another character. -/
theorem fresh_of_lt {text : List Char} {front back : List UInt8} {byte : UInt8}
    (h : utf8 text = front ++ byte :: back) (hbyte : byte < 0x80) : Fresh back :=
  (fresh_iff_lt h (isContinuation_of_lt hbyte)).2 hbyte

end Lexer

/-! ## Positions -/

/-- **A position between two characters** of a source, or at one of its ends. -/
def Pos.OnBoundary (source : String) (p : Pos) : Prop := String.Pos.Raw.IsValid source ⟨p.offset⟩

theorem length_utf8_toList (s : String) : (utf8 s.toList).length = s.utf8ByteSize := by
  rw [← toUTF8_eq_utf8]
  rfl

/-- **A position is between two characters if no character goes on there.** -/
theorem Pos.onBoundary_iff_fresh {source : String} {front back : List UInt8}
    (h : utf8 source.toList = front ++ back) :
    (Pos.origin.advance front).OnBoundary source ↔ Lexer.Fresh back := by
  rw [OnBoundary, String.Pos.Raw.isValid_iff_exists_append, ← Lexer.exists_utf8_iff_fresh h,
    offset_advance_origin]
  constructor
  · rintro ⟨s₁, s₂, rfl, hend⟩
    have hlength : front.length = (utf8 s₁.toList).length :=
      (congrArg String.Pos.Raw.byteIdx hend).trans (length_utf8_toList s₁).symm
    rw [String.toList_append, utf8_append] at h
    obtain ⟨hfront, hback⟩ := List.append_inj h hlength.symm
    exact ⟨s₁.toList, s₂.toList, String.toList_append, hfront.symm, hback.symm⟩
  · rintro ⟨text₁, text₂, htext, rfl, rfl⟩
    refine ⟨String.ofList text₁, String.ofList text₂, ?_, ?_⟩
    · rw [← String.ofList_append, ← htext, String.ofList_toList]
    · have hlength := length_utf8_toList (String.ofList text₁)
      rw [String.toList_ofList] at hlength
      rw [hlength]
      rfl

/-- The end of a source is behind its last character. -/
theorem Pos.onBoundary_end (source : String) :
    (Pos.origin.advance (utf8 source.toList)).OnBoundary source :=
  (onBoundary_iff_fresh (List.append_nil _).symm).2 Lexer.fresh_nil

namespace Lexer

/-! ## Gaps -/

theorem lt_of_isBlank {byte : UInt8} (h : isBlank byte = true) : byte < 0x80 := by
  rcases isBlank_iff.1 h with rfl | rfl | rfl | rfl <;> decide

/-- A character begins after a gap. -/
theorem Gap.fresh {text : List Char} {front gap rest : List UInt8} (h : Gap gap rest)
    (hgap : gap ≠ []) (htext : utf8 text = front ++ (gap ++ rest)) : Fresh rest := by
  induction h generalizing front with
  | nil => exact absurd rfl hgap
  | @blank byte gap rest hbyte _ ih =>
    cases gap with
    | nil => exact fresh_of_lt htext (lt_of_isBlank hbyte)
    | cons next gap => exact @ih (front ++ [byte]) (List.cons_ne_nil _ _) (by simpa using htext)
  | @comment line gap rest _ hend _ ih =>
    cases gap with
    | nil =>
      intro byte hbyte
      rw [hend byte hbyte]
      rfl
    | cons next gap =>
      exact @ih (front ++ 0x2F :: 0x2F :: line) (List.cons_ne_nil _ _) (by simpa using htext)

/-- **What stands before a token**: a gap, and the token before it if it is not
the first. -/
theorem Tiled.exists_gap {before bytes : List UInt8} {ts : List Token} {t : Token}
    (h : Tiled before bytes ts) (ht : t ∈ ts) :
    ∃ front gap back, before ++ bytes = front ++ (gap ++ back) ∧ Gap gap back ∧
      t.span.start = Pos.origin.advance (front ++ gap) ∧
      (front = before ∧ (∃ us, ts = t :: us) ∨
        ∃ us p vs, ts = us ++ p :: t :: vs ∧ p.span.stop = Pos.origin.advance front) := by
  induction h with
  | @stop before gap hgap =>
    rw [List.mem_singleton] at ht
    subst ht
    exact ⟨before, gap, [], by simp, hgap, rfl, .inl ⟨rfl, [], rfl⟩⟩
  | @token before gap first tail rest ts hgap _ ih =>
    rcases List.mem_cons.1 ht with rfl | ht
    · exact ⟨before, gap, first :: (tail ++ rest), by simp, hgap, rfl, .inl ⟨rfl, ts, rfl⟩⟩
    · obtain ⟨front, gap', back, hbytes, hgap', hstart, hfirst | ⟨us, p, vs, rfl, hp⟩⟩ := ih ht
      · obtain ⟨rfl, us, rfl⟩ := hfirst
        exact ⟨_, gap', back, by simpa using hbytes, hgap', hstart, .inr ⟨[], _, us, rfl, rfl⟩⟩
      · exact ⟨front, gap', back, by simpa using hbytes, hgap', hstart,
          .inr ⟨_ :: us, p, vs, rfl, hp⟩⟩

/-! ## Strings -/

/-- **How a string ends**, given its bytes after the opening quote and what
follows them: at a quote, with the source, or at an escape that is not known. -/
inductive Closes (body rest : List UInt8) : Prop where
  | quoted (front : List UInt8) (value : List Char) : body = front ++ [quote] →
      (∀ found, contents found body = .ok (found ++ (utf8 value).toArray)) → Closes body rest
  | unterminated : rest = [] →
      (∀ found, contents found body = .error .unterminatedString) → Closes body rest
  | escape (front : List UInt8) (code : UInt8) : body = front ++ [backslash, code] →
      (∀ found, contents found body = .error (.unknownEscape (Char.ofUInt8 code))) →
      Closes body rest

/-- A string with one more character in front of it, written out or escaped. -/
theorem Closes.cons {body rest piece : List UInt8} (h : Closes body rest) (c : Char)
    (hpiece : ∀ found bytes, contents found (piece ++ bytes) =
      contents (found ++ (String.utf8EncodeChar c).toArray) bytes) :
    Closes (piece ++ body) rest := by
  cases h with
  | quoted front value hbody hcontents =>
    refine .quoted (piece ++ front) (c :: value) (by rw [hbody, List.append_assoc]) fun found => ?_
    rw [hpiece, hcontents, utf8_cons]
    simp
  | unterminated hrest hcontents =>
    exact .unterminated hrest fun found => by rw [hpiece, hcontents]
  | escape front code hbody hcontents =>
    exact .escape (piece ++ front) code (by rw [hbody, List.append_assoc]) fun found => by
      rw [hpiece, hcontents]

/-- An escape stands for a character of ASCII, and it is written in ASCII. -/
theorem exists_char_of_escaped? {code byte : UInt8} (h : escaped? code = some byte) :
    code < 0x80 ∧ ∃ c, String.utf8EncodeChar c = [byte] := by
  unfold escaped? at h
  split at h
  · next hcode =>
    cases h
    exact ⟨by rw [eq_of_beq hcode]; decide, '\n', by decide⟩
  · split at h
    · next hcode =>
      cases h
      exact ⟨by rw [eq_of_beq hcode]; decide, '\t', by decide⟩
    · split at h
      · next hcode =>
        cases h
        exact ⟨by rw [eq_of_beq hcode]; decide, '"', by decide⟩
      · split at h
        · next hcode =>
          cases h
          exact ⟨by rw [eq_of_beq hcode]; decide, '\\', by decide⟩
        · cases h

/-- **A text after an opening quote is read as a string that ends in one of
three ways.** -/
theorem exists_closes (text : List Char) : ∃ body rest, utf8 text = body ++ rest ∧
    (∀ count, stringExtent count (utf8 text) = count + body.length) ∧ Closes body rest := by
  induction hlength : text.length using Nat.strongRecOn generalizing text with
  | _ n ih =>
    subst hlength
    cases text with
    | nil => exact ⟨[], [], rfl, fun count => rfl, .unterminated rfl fun found => rfl⟩
    | cons c text =>
      by_cases hquote : c = '"'
      · subst hquote
        have hc : String.utf8EncodeChar '"' = [quote] := by decide
        refine ⟨[quote], utf8 text, by rw [utf8_cons, hc], fun count => ?_,
          .quoted [] [] rfl fun found => ?_⟩
        · rw [utf8_cons, hc, List.singleton_append, stringExtent.eq_def]
          rfl
        · rw [contents.eq_def]
          simp
      by_cases hbackslash : c = '\\'
      · subst hbackslash
        have hc : String.utf8EncodeChar '\\' = [backslash] := by decide
        rw [utf8_cons, hc, List.singleton_append]
        cases text with
        | nil => exact ⟨[backslash], [], rfl, fun count => rfl, .unterminated rfl fun found => rfl⟩
        | cons d text =>
          obtain ⟨code, more, hd, -, -, hmore⟩ := utf8EncodeChar_eq_cons d
          rw [utf8_cons, hd, List.cons_append]
          cases hescape : escaped? code with
          | none =>
            -- The string ends with the first byte of the character, and the
            -- others are left.
            refine ⟨[backslash, code], more ++ utf8 text, rfl, fun count => ?_,
              .escape [] code rfl fun found => ?_⟩
            · rw [stringExtent, if_neg (by decide), if_pos (by decide), hescape]
              rfl
            · rw [contents, if_neg (by decide), if_pos (by decide), hescape]
          | some byte =>
            obtain ⟨hascii, e, he⟩ := exists_char_of_escaped? hescape
            -- The character after the backslash is of ASCII, so the escape
            -- takes up both of them.
            obtain rfl := hmore.2 hascii
            have hshorter : text.length < ('\\' :: d :: text).length :=
              Nat.lt_succ_of_lt (Nat.lt_succ_self _)
            obtain ⟨body, rest, hbytes, hextent, hcloses⟩ := ih text.length hshorter text rfl
            refine ⟨backslash :: code :: body, rest, congrArg (backslash :: code :: ·) hbytes,
              fun count => ?_,
              @Closes.cons body rest [backslash, code] hcloses e fun found bytes => ?_⟩
            · rw [List.nil_append, stringExtent_escaped hescape, hextent, List.length_cons,
                List.length_cons]
              omega
            · rw [he, List.cons_append, List.singleton_append, contents_escaped hescape]
              simp
      · have hplain := plain_utf8EncodeChar hquote hbackslash
        obtain ⟨body, rest, hbytes, hextent, hcloses⟩ := ih text.length (by simp) text rfl
        refine ⟨String.utf8EncodeChar c ++ body, rest, by rw [utf8_cons, hbytes, List.append_assoc],
          fun count => ?_, hcloses.cons c fun found bytes => contents_plain hplain found bytes⟩
        rw [utf8_cons, stringExtent_plain hplain, hextent, List.length_append, Nat.add_assoc]

/-! ## Bytes of ASCII -/

theorem lt_of_isDigit {byte : UInt8} (h : isDigit byte = true) : byte < 0x80 := by
  simp [isDigit, UInt8.le_iff_toNat_le, UInt8.lt_iff_toNat_lt] at h ⊢
  omega

theorem lt_of_isWordByte {byte : UInt8} (h : isWordByte byte = true) : byte < 0x80 := by
  simp [isWordByte, isWordStart, isDigit, UInt8.le_iff_toNat_le, UInt8.lt_iff_toNat_lt,
    ← UInt8.toNat_inj] at h ⊢
  omega

theorem lt_of_isWordStart {byte : UInt8} (h : isWordStart byte = true) : byte < 0x80 :=
  lt_of_isWordByte (by rw [isWordByte, h, Bool.true_or])

theorem lt_of_mark? {byte : UInt8} {mark : TokenKind} (h : mark? byte = some mark) :
    byte < 0x80 := by
  have hlt : ∀ {c : Char}, Char.ofUInt8 byte = c → c.toNat < 0x80 → byte < 0x80 := by
    rintro c rfl hc
    exact UInt8.lt_iff_toNat_lt.2 hc
  unfold mark? at h
  split at h <;> cases h
  all_goals exact hlt ‹_› (by decide)

/-- The bytes of a run, and what follows them. -/
theorem run_of_length_takeWhile {p : UInt8 → Bool} {run rest : List UInt8}
    (h : ((run ++ rest).takeWhile p).length = run.length) :
    (∀ byte ∈ run, p byte = true) ∧ ∀ byte ∈ rest.head?, p byte = false := by
  have hsplit := List.takeWhile_append_dropWhile (p := p) (l := run ++ rest)
  obtain ⟨hrun, hrest⟩ := List.append_inj hsplit h
  have hall := List.all_takeWhile (p := p) (l := run ++ rest)
  have hnot := List.head?_dropWhile_not p (run ++ rest)
  rw [hrun] at hall
  rw [hrest] at hnot
  refine ⟨List.all_eq_true.1 hall, fun byte hbyte => ?_⟩
  rw [Option.mem_def] at hbyte
  simpa [hbyte] using hnot

/-- A number is of ASCII. -/
theorem exists_numberExtent (bytes : List UInt8) : ∃ run rest, bytes = run ++ rest ∧
    numberExtent bytes = run.length ∧ ∀ byte ∈ run, byte < 0x80 := by
  have hdigits : ∀ bytes, digits bytes ++ bytes.drop (digits bytes).length = bytes ∧
      ∀ byte ∈ digits bytes, byte < 0x80 := by
    intro bytes
    have hall := List.all_takeWhile (p := isDigit) (l := bytes)
    exact ⟨List.prefix_iff_eq_append.1 (List.takeWhile_prefix isDigit),
      fun byte hbyte => lt_of_isDigit (List.all_eq_true.1 hall byte hbyte)⟩
  obtain ⟨hbytes, hwhole⟩ := hdigits bytes
  unfold numberExtent
  dsimp only
  split
  · next rest hdrop =>
    rw [hdrop] at hbytes
    obtain ⟨hrest, hfraction⟩ := hdigits rest
    split
    · exact ⟨digits bytes, 0x2E :: rest, hbytes.symm, rfl, hwhole⟩
    · refine ⟨digits bytes ++ 0x2E :: digits rest, rest.drop (digits rest).length, ?_, ?_, ?_⟩
      · rw [List.append_assoc, List.cons_append, hrest, hbytes]
      · simp only [List.length_append, List.length_cons]
        omega
      · exact List.forall_mem_append.2 ⟨hwhole, List.forall_mem_cons.2 ⟨by decide, hfraction⟩⟩
  · exact ⟨digits bytes, _, hbytes.symm, rfl, hwhole⟩

/-! ## Where tokens end -/

section

variable {text : List Char} {first : UInt8} {front tail rest : List UInt8}

/-- Another character follows bytes of ASCII. -/
theorem fresh_of_forall_lt (htext : utf8 text = front ++ first :: (tail ++ rest))
    (h : ∀ byte ∈ first :: tail, byte < 0x80) : Fresh rest := by
  have hne : first :: tail ≠ [] := List.cons_ne_nil _ _
  have hlast := List.dropLast_concat_getLast hne
  rw [← List.cons_append, ← hlast, List.append_assoc, List.singleton_append,
    ← List.append_assoc] at htext
  exact fresh_of_lt htext (h _ (List.getLast_mem hne))

/-- **A token other than a string ends with a character.** -/
theorem fresh_of_extent (hfirst : first ≠ quote)
    (htext : utf8 text = front ++ first :: (tail ++ rest))
    (hextent : extent first (tail ++ rest) = tail.length) : Fresh rest := by
  rw [extent, if_neg (by simpa using hfirst)] at hextent
  split at hextent
  · next hdigit =>
    obtain ⟨run, back, hbytes, hrun, hall⟩ := exists_numberExtent (tail ++ rest)
    obtain ⟨rfl, -⟩ := List.append_inj hbytes (hextent.symm.trans hrun)
    exact fresh_of_forall_lt htext (List.forall_mem_cons.2 ⟨lt_of_isDigit hdigit, hall⟩)
  · split at hextent
    · next hword =>
      have hall := (run_of_length_takeWhile hextent).1
      exact fresh_of_forall_lt htext (List.forall_mem_cons.2
        ⟨lt_of_isWordStart hword, fun byte hbyte => lt_of_isWordByte (hall byte hbyte)⟩)
    · split at hextent
      · next mark hmark =>
        refine fresh_of_forall_lt htext (List.forall_mem_cons.2 ⟨lt_of_mark? hmark, ?_⟩)
        split at hextent
        · next hdoubled =>
          obtain ⟨byte, rfl⟩ := List.length_eq_one_iff.1 hextent.symm
          obtain rfl : byte = 0x3D := by simpa using (Bool.and_eq_true_iff.1 hdoubled).2
          exact List.forall_mem_singleton.2 (by decide)
        · obtain rfl := List.length_eq_zero_iff.1 hextent.symm
          exact List.forall_mem_nil _
      · exact (run_of_length_takeWhile hextent).2

/-- A mark is always written the same, whether it is doubled or not. So it is no
error, and nothing that has a text of its own. -/
theorem fixedText_of_mark? {mark : TokenKind} (h : mark? first = some mark) :
    mark.fixedText ≠ none ∧ ((doubled? mark).getD mark).fixedText ≠ none := by
  unfold mark? at h
  split at h <;> cases h <;> exact ⟨Option.some_ne_none _, Option.some_ne_none _⟩

/-- A reserved word is always written the same, too. -/
theorem fixedText_of_keyword? {word : String} {keyword : TokenKind}
    (h : TokenKind.keyword? word = some keyword) : keyword.fixedText ≠ none := by
  unfold TokenKind.keyword? at h
  split at h <;> cases h <;> exact Option.some_ne_none _

/-- **Where the text of a token goes.** Of the tokens that are no strings, those
that are not always written the same are numbers, identifiers, which have the
text as their name, and errors, which show it. A character of ASCII is shown
without a detour through its bytes, and takes with it what continues a
character. -/
theorem kind_cases (tail : List UInt8) (hfirst : first ≠ quote) :
    (kind first tail).fixedText ≠ none ∨ (∃ value, kind first tail = .number value) ∨
      kind first tail = .identifier (decode (first :: tail)) ∨
      (first < 0x80 ∧ (∀ bytes, extent first bytes = (bytes.takeWhile isContinuation).length) ∧
        kind first tail = .error (.unexpectedCharacter (Char.ofUInt8 first).toString)) ∨
      kind first tail = .error (.unexpectedCharacter (decode (first :: tail))) := by
  rw [kind, if_neg (by simpa using hfirst)]
  split
  · exact .inr (.inl ⟨_, rfl⟩)
  · next hdigit =>
    split
    · rw [wordKind]
      cases hword : TokenKind.keyword? (decode (first :: tail)) with
      | some keyword => exact .inl (fixedText_of_keyword? hword)
      | none => exact .inr (.inr (.inl rfl))
    · next hword =>
      split
      · next mark hmark =>
        obtain ⟨hone, htwo⟩ := fixedText_of_mark? hmark
        split
        · exact .inl hone
        · exact .inl htwo
      · next hmark =>
        split
        · next hascii =>
          refine .inr (.inr (.inr (.inl ⟨hascii, fun bytes => ?_, rfl⟩)))
          rw [extent, if_neg (by simpa using hfirst), if_neg hdigit, if_neg hword, hmark]
        · exact .inr (.inr (.inr (.inr rfl)))

/-- An error that is no string is about a character. -/
theorem exists_of_kind_eq_error {cause : LexError} (hfirst : first ≠ quote)
    (h : kind first tail = .error cause) : ∃ character, cause = .unexpectedCharacter character := by
  rcases kind_cases tail hfirst with hfixed | ⟨value, hnumber⟩ | hword | hshown | hshown
  · rw [h] at hfixed
    exact absurd rfl hfixed
  · rw [h] at hnumber
    cases hnumber
  · rw [h] at hword
    cases hword
  · obtain ⟨-, -, hshown⟩ := hshown
    rw [h] at hshown
    cases hshown
    exact ⟨_, rfl⟩
  · rw [h] at hshown
    cases hshown
    exact ⟨_, rfl⟩

/-- What begins inside of a character is no token. -/
theorem kind_of_isContinuation (h : isContinuation first = true) :
    kind first tail = .error (.unexpectedCharacter (decode (first :: tail))) := by
  have hle : ¬first < 0x80 := fun hlt => by rw [isContinuation_of_lt hlt] at h; cases h
  have hquote : first ≠ quote := by
    rintro rfl
    exact hle (by decide)
  have hdigit : ¬isDigit first = true := fun hdigit => hle (lt_of_isDigit hdigit)
  have hword : ¬isWordStart first = true := fun hword => hle (lt_of_isWordStart hword)
  have hmark : mark? first = none :=
    Option.eq_none_iff_forall_ne_some.2 fun mark hmark => hle (lt_of_mark? hmark)
  rw [kind, if_neg (by simpa using hquote), if_neg hdigit, if_neg hword, hmark]
  exact if_neg hle

/-- **A string of a source ends in one of three ways.** -/
theorem closes_of_extent (htext : utf8 text = front ++ quote :: (tail ++ rest))
    (hextent : extent quote (tail ++ rest) = tail.length) : Closes tail rest := by
  have hfresh : Fresh (tail ++ rest) := fresh_of_lt htext (by decide)
  rw [← List.singleton_append, ← List.append_assoc] at htext
  obtain ⟨-, inside, -, -, hinside⟩ := (exists_utf8_iff_fresh htext).2 hfresh
  obtain ⟨body, rest', hbytes, hbody, hcloses⟩ := exists_closes inside
  have hlength : tail.length = body.length := by
    rw [extent, if_pos (by decide), hinside, hbody, Nat.zero_add] at hextent
    exact hextent.symm
  obtain ⟨rfl, rfl⟩ := List.append_inj (hinside.trans hbytes) hlength
  exact hcloses

/-- **No string holds bytes that are not a text.** -/
theorem Closes.kind_ne_invalidText (h : Closes tail rest) :
    kind quote tail ≠ .error .invalidText := by
  rw [kind, if_pos (by decide), stringKind]
  cases h with
  | quoted front value _ hcontents =>
    rw [hcontents, Array.empty_append]
    dsimp only
    rw [fromUTF8?_utf8]
    intro heq
    cases heq
  | unterminated _ hcontents =>
    rw [hcontents]
    intro heq
    cases heq
  | escape front code _ hcontents =>
    rw [hcontents]
    intro heq
    cases heq

/-- A string has no text but its contents: it is no identifier, and no error
that shows a character. -/
theorem Closes.kind_ne_text (h : Closes tail rest) (text : String) :
    ¬(kind quote tail = .identifier text ∨
      kind quote tail = .error (.unexpectedCharacter text)) := by
  rw [kind, if_pos (by decide), stringKind]
  cases h with
  | quoted front value _ hcontents =>
    rw [hcontents, Array.empty_append]
    dsimp only
    rw [fromUTF8?_utf8]
    rintro (hkind | hkind) <;> cases hkind
  | unterminated _ hcontents =>
    rw [hcontents]
    rintro (hkind | hkind) <;> cases hkind
  | escape front code _ hcontents =>
    rw [hcontents]
    rintro (hkind | hkind) <;> cases hkind

/-- **A string ends with a character**, unless it ends at an escape whose
character is not of ASCII. -/
theorem Closes.not_fresh_iff (h : Closes tail rest)
    (htext : utf8 text = front ++ quote :: (tail ++ rest)) :
    ¬Fresh rest ↔ ∃ c, 0x80 ≤ c.toNat ∧ kind quote tail = .error (.unknownEscape c) := by
  rw [kind, if_pos (by decide), stringKind]
  cases h with
  | quoted front' value hbody hcontents =>
    rw [hcontents, Array.empty_append]
    dsimp only
    rw [fromUTF8?_utf8]
    have hfresh : Fresh rest := by
      rw [hbody] at htext
      exact @fresh_of_lt text (front ++ quote :: front') rest quote (by simpa using htext)
        (by decide)
    refine iff_of_false (fun hnot => hnot hfresh) ?_
    rintro ⟨c, -, heq⟩
    cases heq
  | unterminated hrest hcontents =>
    rw [hcontents, hrest]
    refine iff_of_false (fun hnot => hnot fresh_nil) ?_
    rintro ⟨c, -, heq⟩
    cases heq
  | escape front' code hbody hcontents =>
    rw [hcontents]
    rw [hbody] at htext
    -- The byte after the backslash begins a character, so it is the only one of
    -- it exactly if it is of ASCII.
    have hcode : isContinuation code = false := fresh_cons.1 <|
      @fresh_of_lt text (front ++ quote :: front') (code :: rest) backslash (by simpa using htext)
        (by decide)
    rw [@fresh_iff_lt text (front ++ quote :: (front' ++ [backslash])) rest code
      (by simpa using htext) hcode,
      UInt8.not_lt, UInt8.le_iff_toNat_le]
    constructor
    · intro hcode
      exact ⟨Char.ofUInt8 code, hcode, rfl⟩
    · rintro ⟨c, hc, heq⟩
      cases heq
      exact hc

end

/-! ## Tokens of a source -/

/-- Bytes are those of no text, if reading them as one gives nothing. -/
theorem fromUTF8?_eq_none_iff {bytes : List UInt8} :
    String.fromUTF8? ⟨bytes.toArray⟩ = none ↔ ∀ text, bytes ≠ utf8 text := by
  constructor
  · rintro h text rfl
    rw [fromUTF8?_utf8] at h
    cases h
  · intro h
    rw [String.fromUTF8?, dif_neg]
    rintro ⟨text, htext⟩
    refine h text ?_
    have hdata := congrArg (fun b : ByteArray => b.data.toList) htext
    rw [List.utf8Encode, List.data_toByteArray] at hdata
    exact hdata

/-- **What is decoded is the text of the bytes, unless they are those of no
text.** In that case the decoder falls back to the empty text, whose bytes are
not these. -/
theorem toUTF8_decode_eq_iff {bytes : List UInt8} :
    (decode bytes).toUTF8.data.toList = bytes ↔ ∃ text, bytes = utf8 text := by
  rw [toUTF8_eq_utf8]
  constructor
  · intro h
    exact ⟨_, h.symm⟩
  · rintro ⟨text, rfl⟩
    rw [decode_utf8, String.toList_ofList]

/-- A byte of ASCII is decoded to its character. -/
theorem decode_singleton {byte : UInt8} (h : byte < 0x80) :
    decode [byte] = (Char.ofUInt8 byte).toString := by
  have hlt : (Char.ofUInt8 byte).toNat < 0x80 := UInt8.lt_iff_toNat_lt.1 h
  have hbytes : [byte] = utf8 [Char.ofUInt8 byte] := by
    rw [utf8_cons, utf8EncodeChar_of_lt hlt, utf8_nil, List.append_nil]
    exact congrArg (fun b => [b]) (UInt8.ofNat_toNat (x := byte)).symm
  rw [hbytes, decode_utf8]
  rfl

/-- **A token cut out of some bytes**, as far as its extent goes. -/
inductive Cut (bytes : List UInt8) : Token → Prop where
  | stop : Cut bytes ⟨.eof, .point (Pos.origin.advance bytes)⟩
  | token {front tail rest : List UInt8} {first : UInt8} :
      bytes = front ++ first :: (tail ++ rest) →
      extent first (tail ++ rest) = tail.length →
      Cut bytes ⟨kind first tail, Pos.origin.advance front,
        Pos.origin.advance (front ++ first :: tail)⟩

theorem stringExtent_le (count : Nat) (bytes : List UInt8) :
    stringExtent count bytes ≤ count + bytes.length := by
  fun_induction stringExtent count bytes with
  | case1 => exact Nat.le_refl _
  | case2 | case3 | case5 =>
    simp only [List.length_cons]
    omega
  | case4 _ _ _ _ _ _ _ ih | case6 _ _ _ _ _ ih =>
    simp only [List.length_cons] at ih ⊢
    omega

/-- A token is in the source. -/
theorem extent_le (first : UInt8) (rest : List UInt8) : extent first rest ≤ rest.length := by
  unfold extent
  split
  · exact Nat.zero_add rest.length ▸ stringExtent_le 0 rest
  · split
    · obtain ⟨run, back, hrest, hrun, -⟩ := exists_numberExtent rest
      rw [hrun, hrest, List.length_append]
      exact Nat.le_add_right _ _
    · split
      · exact (List.takeWhile_prefix isWordByte).length_le
      · split
        · split
          · next hdoubled =>
            obtain ⟨back, rfl⟩ :=
              List.head?_eq_some_iff.1 (eq_of_beq (Bool.and_eq_true_iff.1 hdoubled).2)
            exact Nat.le_add_left _ _
          · exact Nat.zero_le _
        · exact (List.takeWhile_prefix isContinuation).length_le

theorem cut_of_mem_tokensFrom {found : Array Token} {before bytes : List UInt8} {t : Token}
    (h : t ∈ tokensFrom found (Pos.origin.advance before) bytes) :
    t ∈ found ∨ Cut (before ++ bytes) t := by
  induction hlength : bytes.length using Nat.strongRecOn generalizing found before bytes with
  | _ n ih =>
    have hsplit := List.take_append_drop (triviaExtent false 0 bytes) bytes
    rw [tokensFrom] at h
    dsimp only at h
    rw [← Pos.advance_append] at h
    generalize bytes.take (triviaExtent false 0 bytes) = gap at hsplit h
    split at h
    · next hdrop =>
      rw [hdrop, List.append_nil] at hsplit
      subst hsplit
      rcases Array.mem_push.1 h with hfound | rfl
      · exact .inl hfound
      · exact .inr .stop
    · next first rest hdrop =>
      rw [hdrop] at hsplit
      have htail := List.take_append_drop (extent first rest) rest
      have hle : extent first rest = (rest.take (extent first rest)).length :=
        (List.length_take_of_le (extent_le first rest)).symm
      generalize rest.take (extent first rest) = tail at htail h hle
      generalize rest.drop (extent first rest) = rest' at htail h
      subst htail hsplit hlength
      rw [← Pos.advance_append] at h
      have hshorter : rest'.length < (gap ++ first :: (tail ++ rest')).length := by
        simp only [List.length_append, List.length_cons]
        omega
      -- The token was found after this one, or it is this one, or it was there
      -- before.
      rcases ih rest'.length hshorter h rfl with hpush | hcut
      · rcases Array.mem_push.1 hpush with hfound | rfl
        · exact .inl hfound
        · refine .inr ?_
          have hsplit : before ++ (gap ++ first :: (tail ++ rest')) =
              (before ++ gap) ++ first :: (tail ++ rest') :=
            (List.append_assoc ..).symm
          simpa using Cut.token hsplit hle
      · exact .inr (by simpa using hcut)

end Lexer

/-- **The bytes of a token.** -/
def Token.lexeme (source : String) (t : Token) : List UInt8 :=
  (source.toUTF8.data.toList.drop t.span.start.offset).take
    (t.span.stop.offset - t.span.start.offset)

/-- **A token that begins inside of a character**: right where the token before
it ends, at an escape that has taken the first byte of the character. -/
def Token.Resumes (source : String) (t : Token) : Prop :=
  ∃ us p vs c, tokens source = us ++ p :: t :: vs ∧ 0x80 ≤ c.toNat ∧
    p.kind = .error (.unknownEscape c) ∧ p.span.stop = t.span.start

namespace Lexer

variable {source : String} {t : Token}

theorem cut_of_mem_tokens (h : t ∈ tokens source) : Cut (utf8 source.toList) t := by
  rw [← toUTF8_eq_utf8]
  exact (@cut_of_mem_tokensFrom #[] [] _ t (Array.mem_toList_iff.1 h)).resolve_left
    (Array.not_mem_empty t)

namespace Cut

theorem kind_ne_invalidText (h : Cut (utf8 source.toList) t) : t.kind ≠ .error .invalidText := by
  cases h with
  | stop => nofun
  | @token front tail rest first htext hextent =>
    by_cases hfirst : first = quote
    · subst hfirst
      exact (closes_of_extent htext hextent).kind_ne_invalidText
    · intro hkind
      obtain ⟨character, hcause⟩ := exists_of_kind_eq_error hfirst hkind
      cases hcause

/-- **A token ends between two characters**, unless it is an escape that takes
part of one. -/
theorem not_onBoundary_stop_iff (h : Cut (utf8 source.toList) t) : ¬t.span.stop.OnBoundary source ↔
    ∃ c, 0x80 ≤ c.toNat ∧ t.kind = .error (.unknownEscape c) := by
  cases h with
  | stop => exact iff_of_false (fun hnot => hnot (Pos.onBoundary_end source)) nofun
  | @token front tail rest first htext hextent =>
    have hsplit : utf8 source.toList = (front ++ first :: tail) ++ rest := by simpa using htext
    rw [Pos.onBoundary_iff_fresh hsplit]
    by_cases hfirst : first = quote
    · subst hfirst
      exact (closes_of_extent htext hextent).not_fresh_iff htext
    · refine iff_of_false (fun hnot => hnot (fresh_of_extent hfirst htext hextent)) ?_
      rintro ⟨c, -, hkind⟩
      obtain ⟨character, hcause⟩ := exists_of_kind_eq_error hfirst hkind
      cases hcause

theorem lexeme_eq {front tail rest : List UInt8} {first : UInt8}
    (htext : utf8 source.toList = front ++ first :: (tail ++ rest)) (k : TokenKind) :
    Token.lexeme source ⟨k, Pos.origin.advance front, Pos.origin.advance (front ++ first :: tail)⟩ =
      first :: tail := by
  unfold Token.lexeme
  dsimp only
  rw [toUTF8_eq_utf8, htext, Pos.offset_advance_origin, Pos.offset_advance_origin, List.drop_left,
    List.length_append, Nat.add_sub_cancel_left, ← List.cons_append, List.take_left]

/-- **The bytes of a token are those of a text** exactly if the token begins
between two characters. Where it does and is no string it also ends there, so
that its bytes are those of whole characters. -/
theorem exists_lexeme_eq_utf8_iff (h : Cut (utf8 source.toList) t)
    (hquote : (t.lexeme source).head? ≠ some quote) :
    (∃ text, t.lexeme source = utf8 text) ↔ t.span.start.OnBoundary source := by
  cases h with
  | stop =>
    refine iff_of_true ⟨[], ?_⟩ (Pos.onBoundary_end source)
    simp [Token.lexeme, Span.point]
  | @token front tail rest first htext hextent =>
    rw [lexeme_eq htext] at hquote ⊢
    rw [Pos.onBoundary_iff_fresh htext]
    have hrest : Fresh rest :=
      fresh_of_extent (fun hfirst => hquote (congrArg some hfirst)) htext hextent
    constructor
    · rintro ⟨lexeme, hlexeme⟩
      have hfresh : Fresh (first :: tail) := hlexeme ▸ fresh_utf8 lexeme
      exact fresh_cons.2 (fresh_cons.1 hfresh)
    · intro hfresh
      obtain ⟨-, inside, -, -, hinside⟩ := (exists_utf8_iff_fresh htext).2 hfresh
      rw [← List.cons_append] at hinside
      obtain ⟨lexeme, -, -, hlexeme, -⟩ := (exists_utf8_iff_fresh hinside.symm).2 hrest
      exact ⟨lexeme, hlexeme⟩

/-- What begins inside of a character has no text, and is an error that shows
none. -/
theorem kind_of_not_onBoundary (h : Cut (utf8 source.toList) t)
    (hstart : ¬t.span.start.OnBoundary source) :
    decode (t.lexeme source) = "" ∧ t.kind = .error (.unexpectedCharacter "") := by
  cases h with
  | stop => exact absurd (Pos.onBoundary_end source) hstart
  | @token front tail rest first htext hextent =>
    rw [Pos.onBoundary_iff_fresh htext, fresh_cons, Bool.not_eq_false] at hstart
    have hnone : String.fromUTF8? ⟨(first :: tail).toArray⟩ = none := by
      refine fromUTF8?_eq_none_iff.2 fun lexeme hlexeme => ?_
      have hfresh : Fresh (first :: tail) := hlexeme ▸ fresh_utf8 lexeme
      rw [fresh_cons.1 hfresh] at hstart
      cases hstart
    have hdecode : decode (first :: tail) = "" := by
      rw [decode, hnone]
      rfl
    rw [lexeme_eq htext, kind_of_isContinuation hstart, hdecode]
    exact ⟨rfl, rfl⟩

/-- **The text that a token was given is the text of its bytes**: the name of an
identifier, and the character that an error shows. A character of ASCII is one
byte, for no character goes on after it. -/
theorem text_eq_decode (h : Cut (utf8 source.toList) t) {text : String}
    (hkind : t.kind = .identifier text ∨ t.kind = .error (.unexpectedCharacter text)) :
    text = decode (t.lexeme source) := by
  cases h with
  | stop => rcases hkind with hkind | hkind <;> cases hkind
  | @token front tail rest first htext hextent =>
    rw [lexeme_eq htext]
    dsimp only at hkind
    by_cases hfirst : first = quote
    · subst hfirst
      exact ((closes_of_extent htext hextent).kind_ne_text text hkind).elim
    · rcases kind_cases tail hfirst with hfixed | ⟨value, hnumber⟩ | hword | hshown | hshown
      · rcases hkind with hkind | hkind <;> rw [hkind] at hfixed <;> exact absurd rfl hfixed
      · rw [hnumber] at hkind
        rcases hkind with hkind | hkind <;> cases hkind
      · rw [hword] at hkind
        rcases hkind with hkind | hkind <;> cases hkind
        rfl
      · obtain ⟨hascii, hrun, hshown⟩ := hshown
        have htail : tail = [] := by
          rw [hrun, takeWhile_eq_nil_of_fresh (fresh_of_lt htext hascii)] at hextent
          exact List.length_eq_zero_iff.1 hextent.symm
        rw [htail, decode_singleton hascii]
        rw [hshown] at hkind
        rcases hkind with hkind | hkind <;> cases hkind
        rfl
      · rw [hshown] at hkind
        rcases hkind with hkind | hkind <;> cases hkind
        rfl

end Cut

/-- **A token begins inside of a character exactly after an escape that takes
part of the character.** -/
theorem not_onBoundary_start_iff (ht : t ∈ tokens source) :
    ¬t.span.start.OnBoundary source ↔ t.Resumes source := by
  constructor
  · intro hstart
    obtain ⟨front, gap, back, hbytes, hgap, hadvance, hbefore⟩ :=
      (tiled_tokens source).exists_gap ht
    rw [List.nil_append, toUTF8_eq_utf8] at hbytes
    have hsplit : utf8 source.toList = (front ++ gap) ++ back := by rw [hbytes, List.append_assoc]
    have hback : ¬Fresh back := by rwa [hadvance, Pos.onBoundary_iff_fresh hsplit] at hstart
    have hempty : gap = [] := Classical.not_not.1 fun hne => hback (hgap.fresh hne hbytes)
    subst hempty
    rw [List.append_nil] at hadvance
    rcases hbefore with ⟨rfl, -⟩ | ⟨us, p, vs, htokens, hstop⟩
    · rw [List.nil_append, List.nil_append] at hbytes
      exact absurd (hbytes ▸ fresh_utf8 source.toList) hback
    · rw [← hstop] at hadvance
      have hp : p ∈ tokens source := by simp [htokens]
      obtain ⟨c, hc, hkind⟩ := (cut_of_mem_tokens hp).not_onBoundary_stop_iff.1 (hadvance ▸ hstart)
      exact ⟨us, p, vs, c, htokens, hc, hkind, hadvance.symm⟩
  · rintro ⟨us, p, vs, c, htokens, hc, hkind, hstop⟩
    have hp : p ∈ tokens source := by simp [htokens]
    rw [← hstop]
    exact (cut_of_mem_tokens hp).not_onBoundary_stop_iff.2 ⟨c, hc, hkind⟩

end Lexer

/-- **Tokens keep characters whole.** No string of a source holds bytes that are
not a text. Every token begins and ends between two characters, but for an
escape that is not known and whose character is not of ASCII: the escape takes
the first byte of the character, and the token right after it begins inside of
the character.

These are the only tokens for which decoding falls back to the empty text. The
text of any other token that is no string has the bytes of the token, and it is
the text that the token was given: an identifier has it as its name, and an
error shows it. -/
theorem tokens_keep_characters_whole (source : String) {t : Token} (ht : t ∈ tokens source) :
    t.kind ≠ .error .invalidText ∧
    (¬t.span.stop.OnBoundary source ↔
      ∃ c, 0x80 ≤ c.toNat ∧ t.kind = .error (.unknownEscape c)) ∧
    (¬t.span.start.OnBoundary source ↔ t.Resumes source) ∧
    ((t.lexeme source).head? ≠ some Lexer.quote →
      ((Lexer.decode (t.lexeme source)).toUTF8.data.toList ≠ t.lexeme source ↔ t.Resumes source)) ∧
    (t.Resumes source →
      Lexer.decode (t.lexeme source) = "" ∧ t.kind = .error (.unexpectedCharacter "")) ∧
    ∀ text, t.kind = .identifier text ∨ t.kind = .error (.unexpectedCharacter text) →
      text = Lexer.decode (t.lexeme source) := by
  have hcut := Lexer.cut_of_mem_tokens ht
  have hstart := Lexer.not_onBoundary_start_iff ht
  refine ⟨hcut.kind_ne_invalidText, hcut.not_onBoundary_stop_iff, hstart, fun hquote => ?_,
    fun hresumes => hcut.kind_of_not_onBoundary (hstart.2 hresumes),
    fun text => hcut.text_eq_decode⟩
  rw [← hstart, ne_eq, Lexer.toUTF8_decode_eq_iff, hcut.exists_lexeme_eq_utf8_iff hquote]

/-- An escape in the middle of a string takes the first of the two bytes of a
character. The token after it has no text, and the identifier after that has its
own. -/
theorem tokens_keep_characters_whole_escape :
    let source := "\"é\\éa"
    let p : Token := ⟨.error (.unknownEscape 'Ã'), ⟨0, 1, 1⟩, ⟨5, 1, 6⟩⟩
    let t : Token := ⟨.error (.unexpectedCharacter ""), ⟨5, 1, 6⟩, ⟨6, 1, 7⟩⟩
    let a : Token := ⟨.identifier "a", ⟨6, 1, 7⟩, ⟨7, 1, 8⟩⟩
    (p ∈ tokens source ∧ ¬p.span.stop.OnBoundary source) ∧
      (t ∈ tokens source ∧ t.Resumes source ∧ ¬t.span.start.OnBoundary source ∧
        (t.lexeme source).head? ≠ some Lexer.quote ∧
        (Lexer.decode (t.lexeme source)).toUTF8.data.toList ≠ t.lexeme source ∧
        Lexer.decode (t.lexeme source) = "") ∧
      a ∈ tokens source ∧ "a" = Lexer.decode (a.lexeme source) := by
  intro source p t a
  have htokens : tokens source = [p, t, a, ⟨.eof, ⟨7, 1, 8⟩, ⟨7, 1, 8⟩⟩] := by decide +kernel
  have hp : p ∈ tokens source := by simp [htokens]
  have ht : t ∈ tokens source := by simp [htokens]
  have ha : a ∈ tokens source := by simp [htokens]
  have hresumes : t.Resumes source := ⟨[], p, _, 'Ã', htokens, by decide, rfl, rfl⟩
  have hquote : (t.lexeme source).head? ≠ some Lexer.quote := by decide +kernel
  obtain ⟨-, hstop, -⟩ := tokens_keep_characters_whole source hp
  obtain ⟨-, -, hstart, htext, hnone, -⟩ := tokens_keep_characters_whole source ht
  obtain ⟨-, -, -, -, -, hname⟩ := tokens_keep_characters_whole source ha
  exact ⟨⟨hp, hstop.2 ⟨'Ã', by decide, rfl⟩⟩,
    ⟨ht, hresumes, hstart.2 hresumes, hquote, (htext hquote).2 hresumes, (hnone hresumes).1⟩,
    ha, hname "a" (.inl rfl)⟩

end StackScript
