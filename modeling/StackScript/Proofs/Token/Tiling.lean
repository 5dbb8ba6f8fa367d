import StackScript.Token.Lexer

/-!
# Tokens tile the source

Every byte of a source belongs to exactly one token, or it stands in a gap
between tokens, which holds nothing but blanks and comments. `Lexer.Tiled` says
this by taking the source apart: a gap, the bytes of a token, and so on up to a
last gap, after which comes the end of the source. Whatever is said about the
spans of tokens follows from it by induction.

## Positions

The line and the column of a position are kept up to date byte by byte while the
source is read. `Pos.Located` says what they have to be without reading: the
line feeds before the position are counted, and the bytes since the last of
them. All positions in spans are of the form `Pos.origin.advance front` where
`front` is a front part of the source, and these are located
(`Pos.located_advance`), whatever the bytes are, so that it does not matter
whether a line feed stands in a string, in a comment or in a gap.

Main statement: `tokens_tile_source`.
-/

namespace StackScript

/-! ## Positions -/

namespace Pos

/-- **The position of an offset**: its line is one more than the line feeds
before it, its column one more than the bytes since the last of them. -/
structure Located (bytes : List UInt8) (p : Pos) : Prop where
  /-- The position is in the source, or at its end. -/
  inBounds : p.offset ≤ bytes.length
  /-- Lines count from one. -/
  line : p.line = 1 + (bytes.take p.offset).count 0x0A
  /-- Columns count bytes, from one. -/
  column : p.column = 1 + ((bytes.take p.offset).reverse.takeWhile (· != 0x0A)).length

theorem advance_append (p : Pos) (front back : List UInt8) :
    p.advance (front ++ back) = (p.advance front).advance back := List.foldl_append

/-- Where some bytes end, read from their end. -/
theorem foldr_next (bytes : List UInt8) : bytes.foldr (fun byte p => p.next byte) origin =
    ⟨bytes.length, 1 + bytes.count 0x0A, 1 + (bytes.takeWhile (· != 0x0A)).length⟩ := by
  induction bytes with
  | nil => rfl
  | cons byte rest ih =>
    rw [List.foldr_cons, ih, next]
    split
    · next hbyte => simp [hbyte, Nat.add_assoc]
    · next hbyte => simp [hbyte, Nat.add_comm]

/-- **Where a position is** follows from the bytes before it: their number, the
line feeds among them, and the bytes since the last of these. -/
theorem advance_origin (bytes : List UInt8) : origin.advance bytes =
    ⟨bytes.length, 1 + bytes.count 0x0A, 1 + (bytes.reverse.takeWhile (· != 0x0A)).length⟩ := by
  rw [advance, List.foldl_eq_foldr_reverse]
  simpa using foldr_next bytes.reverse

@[simp] theorem offset_advance_origin (bytes : List UInt8) :
    (origin.advance bytes).offset = bytes.length := by rw [advance_origin]

/-- **The end of a front part of the source is located.** -/
theorem located_advance (front back : List UInt8) :
    (origin.advance front).Located (front ++ back) := by
  rw [advance_origin]
  exact ⟨by simp, by simp, by simp⟩

end Pos

/-- **The offsets of a span**: its end is not one of them. -/
def Span.Contains (s : Span) (i : Nat) : Prop := s.start.offset ≤ i ∧ i < s.stop.offset

namespace Lexer

/-! ## Gaps -/

/-- **What may stand before some bytes without being a token**: blanks, and
comments, which go on to the end of their line. -/
inductive Gap : List UInt8 → List UInt8 → Prop where
  | nil {rest : List UInt8} : Gap [] rest
  | blank {byte : UInt8} {gap rest : List UInt8} : isBlank byte = true → Gap gap rest →
      Gap (byte :: gap) rest
  | comment {text gap rest : List UInt8} : 0x0A ∉ text →
      (∀ byte ∈ (gap ++ rest).head?, byte = 0x0A) →
      Gap gap rest → Gap (0x2F :: 0x2F :: (text ++ gap)) rest

/-- What has been counted before does not matter to what is skipped. -/
theorem triviaExtent_eq_add (inComment : Bool) (count : Nat) (bytes : List UInt8) :
    triviaExtent inComment count bytes = count + triviaExtent inComment 0 bytes := by
  induction bytes generalizing inComment count with
  | nil => rfl
  | cons byte rest ih =>
    rw [triviaExtent, triviaExtent]
    split
    · rw [ih, ih _ (0 + 1)]
      omega
    · split
      · rw [ih, ih _ (0 + 1)]
        omega
      · split
        · rw [ih, ih _ (0 + 1)]
          omega
        · rfl

/-- The rest of a comment goes on to the end of the line. -/
theorem triviaExtent_true (bytes : List UInt8) : triviaExtent true 0 bytes =
    (bytes.takeWhile (· != 0x0A)).length + triviaExtent false 0 (bytes.dropWhile (· != 0x0A)) := by
  induction bytes with
  | nil => rfl
  | cons byte rest ih =>
    by_cases hbyte : byte = 0x0A
    · subst hbyte
      simp [triviaExtent, isBlank]
    · have hne : (byte != 0x0A) = true := by simpa using hbyte
      rw [triviaExtent, if_pos rfl, triviaExtent_eq_add, hne, ih]
      simp [hbyte]
      omega

/-- A blank is skipped. -/
theorem triviaExtent_blank {byte : UInt8} (h : isBlank byte = true) (rest : List UInt8) :
    triviaExtent false 0 (byte :: rest) = triviaExtent false 0 rest + 1 := by
  rw [triviaExtent, if_neg (by simp), if_pos h, triviaExtent_eq_add, Nat.add_comm]

/-- A comment is two slashes and the rest of the line. -/
theorem triviaExtent_comment (rest : List UInt8) :
    triviaExtent false 0 (0x2F :: 0x2F :: rest) =
      (rest.takeWhile (· != 0x0A)).length +
        triviaExtent false 0 (rest.dropWhile (· != 0x0A)) + 2 := by
  have hopen : triviaExtent false 0 (0x2F :: 0x2F :: rest) =
      triviaExtent true 1 (0x2F :: rest) := by
    simp [triviaExtent, isBlank]
  rw [hopen, triviaExtent_eq_add, triviaExtent_true]
  simp
  omega

/-- Nothing is skipped before a byte that is neither a blank nor the beginning
of a comment. -/
theorem triviaExtent_token {byte : UInt8} {rest : List UInt8} (hblank : isBlank byte = false)
    (hcomment : ¬(byte = 0x2F ∧ rest.head? = some 0x2F)) :
    triviaExtent false 0 (byte :: rest) = 0 := by
  rw [triviaExtent, if_neg (by simp), if_neg (by simp [hblank]), if_neg (by simpa using hcomment)]

/-- The gap before some bytes, as far as it is skipped. -/
def Skips (bytes : List UInt8) : Prop :=
  Gap (bytes.take (triviaExtent false 0 bytes)) (bytes.drop (triviaExtent false 0 bytes))

/-- A comment is skipped up to its line feed, which is a blank. -/
theorem Skips.comment {rest : List UInt8} (h : Skips (rest.dropWhile (· != 0x0A))) :
    Skips (0x2F :: 0x2F :: rest) := by
  have hall := List.all_takeWhile (p := (· != 0x0A)) (l := rest)
  have hnot := List.head?_dropWhile_not (· != 0x0A) rest
  have hline : rest = rest.takeWhile (· != 0x0A) ++ rest.dropWhile (· != 0x0A) :=
    List.takeWhile_append_dropWhile.symm
  unfold Skips
  rw [triviaExtent_comment]
  generalize rest.takeWhile (· != 0x0A) = text at hall hline ⊢
  generalize rest.dropWhile (· != 0x0A) = back at h hnot hline ⊢
  subst hline
  simp only [List.take_succ_cons, List.drop_succ_cons, List.take_length_add_append,
    List.drop_length_add_append]
  refine .comment ?_ ?_ h
  · intro hmem
    simpa using List.all_eq_true.1 hall _ hmem
  · intro byte hbyte
    rw [List.take_append_drop, Option.mem_def] at hbyte
    simpa [hbyte] using hnot

/-- **What is skipped before a token is a gap.** -/
theorem skips (bytes : List UInt8) : Skips bytes := by
  induction hlength : bytes.length using Nat.strongRecOn generalizing bytes with
  | _ n ih =>
    subst hlength
    cases bytes with
    | nil => exact .nil
    | cons byte rest =>
      by_cases hblank : isBlank byte = true
      · have hrest : Skips rest := ih _ (by simp) rest rfl
        unfold Skips
        rw [triviaExtent_blank hblank, List.take_succ_cons, List.drop_succ_cons]
        exact .blank hblank hrest
      · by_cases hcomment : byte = 0x2F ∧ rest.head? = some 0x2F
        · obtain ⟨rfl, hhead⟩ := hcomment
          obtain ⟨rest, rfl⟩ := List.head?_eq_some_iff.1 hhead
          have hshorter := (List.dropWhile_sublist (l := rest) (· != 0x0A)).length_le
          exact Skips.comment (ih _ (by simp; omega) _ rfl)
        · unfold Skips
          rw [triviaExtent_token (by simpa using hblank) hcomment]
          exact .nil

/-! ## Bytes in gaps -/

/-- **A comment of the source**: two slashes and what follows them on the
line. -/
def IsComment (bytes : List UInt8) (start size : Nat) : Prop :=
  ∃ front text back, bytes = front ++ 0x2F :: 0x2F :: (text ++ back) ∧ 0x0A ∉ text ∧
    (∀ byte ∈ back.head?, byte = 0x0A) ∧ start = front.length ∧ size = text.length + 2

theorem IsComment.append {bytes : List UInt8} {start size : Nat} (h : IsComment bytes start size)
    (front : List UInt8) : IsComment (front ++ bytes) (front.length + start) size := by
  obtain ⟨front', text, back, rfl, htext, hback, rfl, rfl⟩ := h
  exact ⟨front ++ front', text, back, by simp, htext, hback, by simp, rfl⟩

/-- **A byte in a gap is a blank or belongs to a comment**, which stands in the
gap as a whole. -/
theorem Gap.blank_or_comment {gap rest : List UInt8} (h : Gap gap rest) {i : Nat}
    (hi : i < gap.length) :
    (∃ byte, gap[i]? = some byte ∧ isBlank byte = true) ∨
    ∃ start size, IsComment (gap ++ rest) start size ∧ start ≤ i ∧ i < start + size ∧
      start + size ≤ gap.length := by
  induction h generalizing i with
  | nil => simp at hi
  | @blank byte gap rest hbyte h ih =>
    cases i with
    | zero => exact .inl ⟨byte, rfl, hbyte⟩
    | succ i =>
      rcases ih (Nat.lt_of_succ_lt_succ hi) with hblank | ⟨start, size, hcomment, hle⟩
      · exact .inl (by simpa using hblank)
      · exact .inr ⟨1 + start, size, hcomment.append [byte], by simp; omega⟩
  | @comment text gap rest htext hback h ih =>
    -- The bytes of the comment, and then those after it.
    let front : List UInt8 := 0x2F :: 0x2F :: text
    have happend : 0x2F :: 0x2F :: (text ++ gap) = front ++ gap := rfl
    rw [happend, List.length_append] at hi ⊢
    by_cases hin : i < front.length
    · exact .inr ⟨0, front.length, ⟨[], text, gap ++ rest, by simp [front], htext, hback, rfl, rfl⟩,
        by omega⟩
    · obtain ⟨k, rfl⟩ : ∃ k, i = front.length + k := ⟨i - front.length, by omega⟩
      rcases ih (Nat.lt_of_add_lt_add_left hi) with hblank | ⟨start, size, hcomment, hle⟩
      · refine .inl ?_
        rwa [List.getElem?_append_right (Nat.le_add_right _ _), Nat.add_sub_cancel_left]
      · refine .inr ⟨front.length + start, size, ?_, by omega⟩
        rw [List.append_assoc]
        exact hcomment.append front

/-- **A byte that is skipped**: a blank, or a byte of a comment of which no byte
is of one of the tokens. The bytes begin at the given offset of the source. -/
def Skipped (bytes : List UInt8) (ts : List Token) (offset i : Nat) : Prop :=
  (∃ byte, bytes[i]? = some byte ∧ isBlank byte = true) ∨
  ∃ start size, IsComment bytes start size ∧ start ≤ i ∧ i < start + size ∧
    ∀ m, start ≤ m → m < start + size → ∀ t ∈ ts, ¬t.span.Contains (offset + m)

/-- The bytes of a gap, if the tokens come after it. -/
theorem Gap.skipped {gap rest : List UInt8} {ts : List Token} {offset i : Nat} (h : Gap gap rest)
    (hi : i < gap.length) (hts : ∀ t ∈ ts, offset + gap.length ≤ t.span.start.offset) :
    Skipped (gap ++ rest) ts offset i := by
  rcases h.blank_or_comment hi with ⟨byte, hbyte, hblank⟩ | ⟨start, size, hcomment, hle, hlt, hend⟩
  · exact .inl ⟨byte, by rwa [List.getElem?_append_left hi], hblank⟩
  · refine .inr ⟨start, size, hcomment, hle, hlt, fun m _ hm t ht hcontains => ?_⟩
    have hstart := hts t ht
    have := hcontains.1
    omega

/-- The bytes after a token, given those before its end. -/
theorem Skipped.append {front bytes : List UInt8} {t : Token} {ts : List Token} {offset i : Nat}
    (h : Skipped bytes ts (offset + front.length) i)
    (ht : t.span.stop.offset ≤ offset + front.length) :
    Skipped (front ++ bytes) (t :: ts) offset (front.length + i) := by
  rcases h with ⟨byte, hbyte, hblank⟩ | ⟨start, size, hcomment, hle, hlt, hall⟩
  · refine .inl ⟨byte, ?_, hblank⟩
    rwa [List.getElem?_append_right (Nat.le_add_right _ _), Nat.add_sub_cancel_left]
  · refine .inr ⟨front.length + start, size, hcomment.append front, by omega, by omega, ?_⟩
    intro m hstart hm
    obtain ⟨k, rfl⟩ := Nat.exists_eq_add_of_le (Nat.le_of_add_right_le hstart)
    refine List.forall_mem_cons.2 ⟨fun hcontains => ?_, ?_⟩
    · have := hcontains.2
      omega
    · rw [← Nat.add_assoc]
      exact hall k (by omega) (by omega)

/-! ## Tokens -/

/-- **The kind of a token is not the end of the source.** -/
theorem kind_ne_eof (first : UInt8) (rest : List UInt8) : kind first rest ≠ .eof := by
  have hmark : ∀ mark, mark? first = some mark →
      mark ≠ .eof ∧ (doubled? mark).getD mark ≠ .eof := by
    intro mark hmark
    unfold mark? at hmark
    split at hmark <;> simp at hmark <;> subst hmark <;> simp [doubled?]
  unfold kind
  split
  · unfold stringKind
    split
    · simp
    · split <;> simp
  · split
    · simp
    · split
      · unfold wordKind TokenKind.keyword?
        split <;> simp
      · split
        · next mark hsome =>
          obtain ⟨hone, htwo⟩ := hmark mark hsome
          split <;> assumption
        · split <;> simp

/-- **Bytes taken apart into gaps and tokens**, after other bytes of the
source. -/
inductive Tiled : List UInt8 → List UInt8 → List Token → Prop where
  | stop {before gap : List UInt8} : Gap gap [] →
      Tiled before gap [⟨.eof, .point (Pos.origin.advance (before ++ gap))⟩]
  | token {before gap : List UInt8} {first : UInt8} {tail rest : List UInt8} {ts : List Token} :
      Gap gap (first :: (tail ++ rest)) → Tiled (before ++ (gap ++ first :: tail)) rest ts →
      Tiled before (gap ++ first :: (tail ++ rest))
        (⟨kind first tail, Pos.origin.advance (before ++ gap),
          Pos.origin.advance (before ++ (gap ++ first :: tail))⟩ :: ts)

/-- **The lexer takes the source apart.** -/
theorem exists_tiled (found : Array Token) (before bytes : List UInt8) : ∃ ts,
    (tokensFrom found (Pos.origin.advance before) bytes).toList = found.toList ++ ts ∧
      Tiled before bytes ts := by
  induction hlength : bytes.length using Nat.strongRecOn generalizing found before bytes with
  | _ n ih =>
    have hgap := skips bytes
    have hsplit := List.take_append_drop (triviaExtent false 0 bytes) bytes
    rw [tokensFrom]
    unfold Skips at hgap
    dsimp only
    rw [← Pos.advance_append]
    generalize bytes.take (triviaExtent false 0 bytes) = gap at hgap hsplit ⊢
    split
    · next hdrop =>
      rw [hdrop] at hgap hsplit
      refine ⟨[_], Array.toList_push, ?_⟩
      rw [← hsplit, List.append_nil]
      exact .stop hgap
    · next first rest hdrop =>
      rw [hdrop] at hgap hsplit
      have htail := List.take_append_drop (extent first rest) rest
      generalize rest.take (extent first rest) = tail at htail ⊢
      generalize rest.drop (extent first rest) = rest' at htail ⊢
      subst htail hsplit hlength
      rw [← Pos.advance_append, List.append_assoc]
      -- The token takes at least its first byte, so what is left is shorter.
      obtain ⟨ts, heq, htiled⟩ := ih rest'.length (by simp; omega) (found.push
        ⟨kind first tail, Pos.origin.advance (before ++ gap),
          Pos.origin.advance (before ++ (gap ++ first :: tail))⟩) _ rest' rfl
      exact ⟨_ :: ts, by rw [heq]; simp, .token hgap htiled⟩

/-- **The tokens of a source tile it.** -/
theorem tiled_tokens (source : String) : Tiled [] source.toUTF8.data.toList (tokens source) := by
  obtain ⟨ts, heq, htiled⟩ := exists_tiled #[] [] source.toUTF8.data.toList
  have htokens : tokens source = ts := heq
  rwa [htokens]

namespace Tiled

variable {before bytes : List UInt8} {ts : List Token}

/-- **The end of the source comes last**, at the end of the bytes and nowhere
else. -/
theorem exists_stop (h : Tiled before bytes ts) : ∃ body stop, ts = body ++ [stop] ∧
    stop = ⟨.eof, .point (Pos.origin.advance (before ++ bytes))⟩ ∧ ∀ t ∈ body, t.kind ≠ .eof := by
  induction h with
  | stop => exact ⟨[], _, rfl, rfl, by simp⟩
  | @token before gap first tail rest ts _ _ ih =>
    obtain ⟨body, stop, rfl, hstop, hbody⟩ := ih
    refine ⟨_ :: body, stop, rfl, by simpa using hstop, List.forall_mem_cons.2 ⟨?_, hbody⟩⟩
    exact kind_ne_eof first tail

/-- Where each token begins and ends. -/
theorem exists_front (h : Tiled before bytes ts) {t : Token} (ht : t ∈ ts) : ∃ front lexeme back,
    bytes = front ++ (lexeme ++ back) ∧ t.span.start = Pos.origin.advance (before ++ front) ∧
      t.span.stop = Pos.origin.advance (before ++ (front ++ lexeme)) ∧
        (lexeme = [] → t.kind = .eof) := by
  induction h with
  | @stop before gap =>
    rw [List.mem_singleton] at ht
    subst ht
    exact ⟨gap, [], [], by simp [Span.point]⟩
  | @token before gap first tail rest ts _ _ ih =>
    rcases List.mem_cons.1 ht with rfl | ht
    · exact ⟨gap, first :: tail, rest, by simp⟩
    · obtain ⟨front, lexeme, back, rfl, hstart, hstop, hempty⟩ := ih ht
      exact ⟨gap ++ first :: (tail ++ front), lexeme, back, by simp, by simpa using hstart,
        by simpa using hstop, hempty⟩

/-- Tokens come after the bytes before them. -/
theorem le_start (h : Tiled before bytes ts) {t : Token} (ht : t ∈ ts) :
    before.length ≤ t.span.start.offset := by
  obtain ⟨front, lexeme, back, -, hstart, -⟩ := h.exists_front ht
  simp [hstart]

/-- **Tokens stand one after another.** -/
theorem pairwise (h : Tiled before bytes ts) :
    ts.Pairwise fun a b => a.span.stop.offset ≤ b.span.start.offset := by
  induction h with
  | stop => exact List.pairwise_singleton _ _
  | token _ h ih =>
    refine List.pairwise_cons.2 ⟨fun b hb => ?_, ih⟩
    simpa using h.le_start hb

/-- Tokens begin one after another. -/
theorem pairwise_start (h : Tiled before bytes ts) :
    ts.Pairwise fun a b => a.span.start.offset < b.span.start.offset := by
  induction h with
  | stop => exact List.pairwise_singleton _ _
  | token _ h ih =>
    refine List.pairwise_cons.2 ⟨fun b hb => ?_, ih⟩
    have hstart := h.le_start hb
    simp at hstart ⊢
    omega

/-- **The positions of tokens are those of their offsets.** -/
theorem located (h : Tiled before bytes ts) {t : Token} (ht : t ∈ ts) :
    t.span.start.Located (before ++ bytes) ∧ t.span.stop.Located (before ++ bytes) := by
  obtain ⟨front, lexeme, back, rfl, hstart, hstop, -⟩ := h.exists_front ht
  rw [hstart, hstop]
  have hfront := Pos.located_advance (before ++ front) (lexeme ++ back)
  have hlexeme := Pos.located_advance (before ++ (front ++ lexeme)) back
  exact ⟨by simpa using hfront, by simpa using hlexeme⟩

/-- Only the end of the source is empty. -/
theorem start_lt_stop (h : Tiled before bytes ts) {t : Token} (ht : t ∈ ts)
    (hkind : t.kind ≠ .eof) :
    t.span.start.offset < t.span.stop.offset := by
  obtain ⟨front, lexeme, back, -, hstart, hstop, hempty⟩ := h.exists_front ht
  have hlexeme : 0 < lexeme.length := List.length_pos_iff.2 fun hnil => hkind (hempty hnil)
  simp [hstart, hstop]
  omega

/-- **A byte of no token is skipped.** -/
theorem skipped (h : Tiled before bytes ts) {i : Nat} (hi : i < bytes.length)
    (hout : ∀ t ∈ ts, ¬t.span.Contains (before.length + i)) : Skipped bytes ts before.length i := by
  induction h generalizing i with
  | @stop before gap hgap =>
    have hskipped : Skipped (gap ++ []) [⟨.eof, .point (Pos.origin.advance (before ++ gap))⟩]
        before.length i := hgap.skipped hi (by simp [Span.point])
    rwa [List.append_nil] at hskipped
  | @token before gap first tail rest ts hgap h ih =>
    obtain ⟨hfirst, hout⟩ := List.forall_mem_cons.1 hout
    by_cases hin : i < gap.length
    · refine hgap.skipped hin (List.forall_mem_cons.2 ⟨by simp, fun t ht => ?_⟩)
      have hstart := h.le_start ht
      simp at hstart
      omega
    · -- The byte is not of the first token, so it comes after it.
      obtain ⟨k, rfl⟩ : ∃ k, i = (gap ++ first :: tail).length + k := by
        refine ⟨i - (gap ++ first :: tail).length, ?_⟩
        simp [Span.Contains] at hfirst ⊢
        omega
      have hk : k < rest.length := by
        simp at hi
        omega
      have hrest := ih hk (by simpa [Nat.add_assoc] using hout)
      rw [List.length_append] at hrest
      simpa using hrest.append (by simp)

end Tiled

end Lexer

/-! ## Sources -/

/-- **Tokens tile the source.** The last token, and no other, is the end of the
source, and it is empty and stands at the end of the bytes. The other tokens are
not empty. Each token ends before the next begins. Every position is in the
source, in the line and the column of its offset. A byte of no token is a blank
or belongs to a comment, and no byte of the comment is of a token. -/
theorem tokens_tile_source (source : String) :
    ∃ body stop, tokens source = body ++ [stop] ∧
      (stop.kind = .eof ∧ stop.span = .point stop.span.start ∧
        stop.span.start.offset = source.toUTF8.data.toList.length) ∧
      (∀ t ∈ body, t.kind ≠ .eof ∧ t.span.start.offset < t.span.stop.offset) ∧
      (tokens source).Pairwise (fun a b => a.span.stop.offset ≤ b.span.start.offset) ∧
      (∀ t ∈ tokens source, t.span.start.Located source.toUTF8.data.toList ∧
        t.span.stop.Located source.toUTF8.data.toList) ∧
      ∀ i byte, source.toUTF8.data.toList[i]? = some byte →
        (∀ t ∈ tokens source, ¬t.span.Contains i) →
        byte ∈ [0x20, 0x09, 0x0D, 0x0A] ∨
        ∃ start size, Lexer.IsComment source.toUTF8.data.toList start size ∧ start ≤ i ∧
          i < start + size ∧
          ∀ m, start ≤ m → m < start + size → ∀ t ∈ tokens source, ¬t.span.Contains m := by
  have htiled := Lexer.tiled_tokens source
  obtain ⟨body, stop, heq, hstop, hbody⟩ := htiled.exists_stop
  refine ⟨body, stop, heq, ?_, fun t ht => ⟨hbody t ht, ?_⟩, htiled.pairwise,
    fun t => htiled.located, ?_⟩
  · simp [hstop, Span.point]
  · exact htiled.start_lt_stop (by simp [heq, ht]) (hbody t ht)
  · intro i byte hbyte hout
    obtain ⟨hi, hget⟩ := List.getElem?_eq_some_iff.1 hbyte
    rcases htiled.skipped hi (by simpa using hout) with ⟨byte', hbyte', hblank⟩ | hcomment
    · obtain rfl := Option.some.inj (hbyte.symm.trans hbyte')
      exact .inl (by simpa [Lexer.isBlank, or_assoc] using hblank)
    · exact .inr (by simpa using hcomment)

end StackScript
