import StackScript.Proofs.Code.Height

/-!
# Reading code of any bytes

Code need not have been written by anyone: it is any array of bytes. Whatever
the bytes are, reading them from the front gives instructions that follow each
other without a gap, up to the end of the code or up to the first place that
holds no instruction.

A `Reader` reads one instruction at a time and remembers how far it has come,
and whether it has failed. All that it gives, one after the other, is what
`Code.decode` finds at once (`Reader.exists_found`). What it has read are the
bytes of the instructions that it gave (`Code.encode_of_decodeAt`), so that
writing undoes reading: `Code.encoding_undoes_decoding`.
-/

namespace StackScript

open Instruction (encodeAll sizeAll offsets)

/-! ## Opcodes and operands -/

namespace Op

/-- The opcodes are listed in the order of their bytes. -/
theorem ctorIdx_all : ∀ n : Fin all.size, (all[n]).ctorIdx = n := by decide

variable {byte : UInt8} {op : Op}

/-- An opcode is found for its own byte only. -/
theorem ofByte?_eq_some_iff : ofByte? byte = some op ↔ op.toByte = byte := by
  constructor
  · intro h
    obtain ⟨hlt, hop⟩ := Array.getElem?_eq_some_iff.1 h
    rw [toByte, ← hop,
      show (all[byte.toNat]).ctorIdx = byte.toNat from ctorIdx_all ⟨byte.toNat, hlt⟩]
    exact UInt8.ofNat_toNat
  · rintro rfl
    exact ofByte?_toByte op

theorem ofByte?_eq_none_iff : ofByte? byte = none ↔ ∀ op : Op, op.toByte ≠ byte := by
  rw [Option.eq_none_iff_forall_ne_some]
  exact forall_congr' fun op => not_congr ofByte?_eq_some_iff

end Op

namespace Code

variable {code : Code} {offset : Nat} {i : Instruction} {op : Op}

theorem drop_eq_cons {byte : UInt8} (h : code[offset]? = some byte) :
    code.toList.drop offset = byte :: code.toList.drop (offset + 1) := by
  obtain ⟨hlt, rfl⟩ := Array.getElem?_eq_some_iff.1 h
  exact List.drop_eq_getElem_cons hlt

/-- Two bytes that are read as one number are the bytes of that number. -/
theorem wide_join (high low : UInt8) :
    Instruction.wide (high.toUInt16 <<< 8 ||| low.toUInt16) = [high, low] := by
  have hhigh : high.toNat < 256 := high.toNat_lt
  have hlow : low.toNat < 2 ^ 8 := low.toNat_lt
  have hjoin : (high.toUInt16 <<< 8 ||| low.toUInt16).toNat = high.toNat * 256 + low.toNat := by
    simp only [UInt16.toNat_or, UInt16.toNat_shiftLeft, UInt8.toNat_toUInt16]
    show high.toNat <<< 8 % 65536 ||| low.toNat = _
    rw [Nat.mod_eq_of_lt (by rw [Nat.shiftLeft_eq]; omega), ← Nat.shiftLeft_add_eq_or_of_lt hlow,
      Nat.shiftLeft_eq]
  have hfirst : ((high.toUInt16 <<< 8 ||| low.toUInt16) >>> 8).toUInt8 = high := by
    apply UInt8.toNat_inj.1
    rw [UInt16.toNat_toUInt8, UInt16.toNat_shiftRight, hjoin]
    show (high.toNat * 256 + low.toNat) >>> 8 % 256 = _
    rw [Nat.shiftRight_eq_div_pow]
    omega
  have hsecond : (high.toUInt16 <<< 8 ||| low.toUInt16).toUInt8 = low := by
    apply UInt8.toNat_inj.1
    rw [UInt16.toNat_toUInt8, hjoin]
    omega
  rw [Instruction.wide, hfirst, hsecond]

theorem wide_of_wide? {n : UInt16} (h : code.wide? offset = some n) :
    Instruction.wide n <+: code.toList.drop offset := by
  unfold wide? at h
  split at h
  · next high low hhigh hlow =>
    cases h
    rw [wide_join, drop_eq_cons hhigh, drop_eq_cons hlow]
    exact ⟨_, rfl⟩
  · cases h

theorem narrow_of_getElem? {n : UInt8} (h : code[offset]? = some n) :
    [n] <+: code.toList.drop offset := by
  rw [drop_eq_cons h]
  exact ⟨_, rfl⟩

/-- **Operands that are read stand in the code**, and their instruction has the
opcode that they were read for. -/
theorem operands_of_operandsAt? (h : code.operandsAt? op offset = some i) :
    i.op = op ∧ i.operands <+: code.toList.drop offset := by
  cases op with
  | constant | jumpNotTruthy | jump | getGlobal | setGlobal | makeArray | makeMap =>
    obtain ⟨n, hn, rfl⟩ := Option.map_eq_some_iff.1 h
    exact ⟨rfl, wide_of_wide? hn⟩
  | getLocal | setLocal | getBuiltin | getFree | call =>
    obtain ⟨n, hn, rfl⟩ := Option.map_eq_some_iff.1 h
    exact ⟨rfl, narrow_of_getElem? hn⟩
  | makeClosure =>
    cases hn : code.wide? offset with
    | none => simp [operandsAt?, hn] at h
    | some n =>
      cases hk : code[offset + 2]? with
      | none => simp [operandsAt?, hn, hk] at h
      | some k =>
        obtain rfl : Instruction.makeClosure n k = i := by simpa [operandsAt?, hn, hk] using h
        obtain ⟨rest, hrest⟩ := wide_of_wide? hn
        have hdrop : code.toList.drop (offset + 2) = rest := by
          rw [← List.drop_drop, ← hrest]
          rfl
        obtain ⟨back, hback⟩ := hdrop ▸ narrow_of_getElem? hk
        refine ⟨rfl, back, ?_⟩
        rw [← hrest, ← hback]
        exact List.append_assoc _ _ _
  | pop | add | sub | mul | div | pushTrue | pushFalse | pushNull | equal | notEqual | greaterThan
  | negate | bang | currentClosure | index | returnValue | returnNull =>
    cases h
    exact ⟨rfl, List.nil_prefix⟩

/-- **An instruction that is read stands in the code**, byte for byte. -/
theorem encode_of_decodeAt (h : code.decodeAt offset = some (.ok i)) :
    i.encode <+: code.toList.drop offset := by
  unfold decodeAt at h
  split at h
  · cases h
  · next byte hbyte =>
    split at h
    · cases h
    · next op hop =>
      split at h
      · cases h
      · next j hj =>
        cases h
        obtain ⟨rfl, hoperands⟩ := operands_of_operandsAt? hj
        rw [Instruction.encode, Op.ofByte?_eq_some_iff.1 hop, drop_eq_cons hbyte]
        exact List.cons_prefix_cons.2 ⟨rfl, hoperands⟩

/-- **When reading fails.** -/
theorem decodeAt_eq_error_iff {e : DecodeError} : code.decodeAt offset = some (.error e) ↔
    (∃ byte, e = .invalidOpcode offset byte ∧ code[offset]? = some byte ∧
      ∀ op : Op, op.toByte ≠ byte) ∨
    ∃ op, e = .truncated offset op ∧ code[offset]? = some op.toByte ∧
      code.size < offset + op.size := by
  cases hbyte : code[offset]? with
  | none =>
    have hdecode : code.decodeAt offset = none := by rw [decodeAt, hbyte]
    simp [hdecode]
  | some byte =>
    cases hop : Op.ofByte? byte with
    | none =>
      have hdecode : code.decodeAt offset = some (.error (.invalidOpcode offset byte)) := by
        rw [decodeAt, hbyte]
        dsimp only
        rw [hop]
      -- The byte is no opcode, so there is no opcode of which operands could be
      -- missing.
      have hnone := Op.ofByte?_eq_none_iff.1 hop
      rw [hdecode]
      constructor
      · intro h
        cases h
        exact .inl ⟨byte, rfl, rfl, hnone⟩
      · rintro (⟨_, rfl, heq, -⟩ | ⟨op, -, heq, -⟩)
        · cases heq
          rfl
        · exact (hnone op (Option.some.inj heq).symm).elim
    | some op =>
      obtain rfl := Op.ofByte?_eq_some_iff.1 hop
      have hshort : code.operandsAt? op (offset + 1) = none ↔ code.size < offset + op.size :=
        operandsAt?_eq_none_iff (Array.getElem?_eq_some_iff.1 hbyte).1
      have hdecode : code.decodeAt offset = some (.error e) ↔
          code.operandsAt? op (offset + 1) = none ∧ e = .truncated offset op := by
        rw [decodeAt, hbyte]
        dsimp only
        rw [hop]
        dsimp only
        cases code.operandsAt? op (offset + 1) with
        | none => simp [eq_comm]
        | some i => simp
      rw [hdecode, hshort]
      constructor
      · rintro ⟨hlt, rfl⟩
        exact .inr ⟨op, rfl, rfl, hlt⟩
      · rintro (⟨_, -, heq, hne⟩ | ⟨op', rfl, heq, hlt⟩)
        · exact (hne op (Option.some.inj heq)).elim
        · have hsame := Op.ofByte?_toByte op'
          rw [← Option.some.inj heq, hop] at hsame
          cases hsame
          exact ⟨hlt, rfl⟩

end Code

/-! ## Reading one instruction at a time -/

/-- **A reader of code.** -/
structure Reader where
  /-- The code. -/
  code : Code
  /-- How far it has come. -/
  offset : Nat
  /-- Whether it has come to a place that holds no instruction. -/
  failed : Bool

namespace Reader

/-- A reader at the front of some code. -/
def start (code : Code) : Reader := ⟨code, 0, false⟩

/-- Whether there is nothing left to read. -/
def isAtEnd (r : Reader) : Bool := r.code.size ≤ r.offset

/-- **The next instruction and its offset**, or why there is none; nothing at
the end of the code or after a failure. -/
def next (r : Reader) : Option (Except DecodeError (Nat × Instruction)) × Reader :=
  if r.failed || r.isAtEnd then (none, r)
  else
    match r.code.decodeAt r.offset with
    | none => (none, r)
    | some (.ok i) => (some (.ok (r.offset, i)), { r with offset := r.offset + i.size })
    | some (.error e) => (some (.error e), { r with failed := true })

/-- **All that a reader gives**, until it gives nothing. -/
inductive Gives : Reader → List (Except DecodeError (Nat × Instruction)) → Reader → Prop where
  | nothing {r r' : Reader} : r.next = (none, r') → Gives r [] r'
  | item {r r₁ r' : Reader} {x : Except DecodeError (Nat × Instruction)}
      {xs : List (Except DecodeError (Nat × Instruction))} :
      r.next = (some x, r₁) → Gives r₁ xs r' →
      Gives r (x :: xs) r'

/-- A reader gives one list of items only. -/
theorem Gives.unique {r r₁ r₂ : Reader} {xs ys : List (Except DecodeError (Nat × Instruction))}
    (h₁ : r.Gives xs r₁) (h₂ : r.Gives ys r₂) : xs = ys ∧ r₁ = r₂ := by
  induction h₁ generalizing ys with
  | nothing hnext =>
    cases h₂ with
    | nothing hnext' =>
      rw [hnext] at hnext'
      exact ⟨rfl, congrArg Prod.snd hnext'⟩
    | item hnext' =>
      rw [hnext] at hnext'
      cases hnext'
  | item hnext _ ih =>
    cases h₂ with
    | nothing hnext' =>
      rw [hnext] at hnext'
      cases hnext'
    | item hnext' hrest =>
      rw [hnext] at hnext'
      cases hnext'
      obtain ⟨rfl, rfl⟩ := ih hrest
      exact ⟨rfl, rfl⟩

variable {code : Code} {offset : Nat}

/-- What a reader gives that has not failed is what is read at its offset. -/
theorem next_eq (code : Code) (offset : Nat) : next ⟨code, offset, false⟩ =
    match code.decodeAt offset with
    | none => (none, ⟨code, offset, false⟩)
    | some (.ok i) => (some (.ok (offset, i)), ⟨code, offset + i.size, false⟩)
    | some (.error e) => (some (.error e), ⟨code, offset, true⟩) := by
  unfold next
  split
  · next h =>
    have hend : code.size ≤ offset := of_decide_eq_true h
    rw [Code.decodeAt_eq_none_iff.2 hend]
  · rfl

theorem next_of_failed (code : Code) (offset : Nat) :
    next ⟨code, offset, true⟩ = (none, ⟨code, offset, true⟩) := rfl

/-- **Some instructions of the code without a gap, and at most one error**: what
reading from an offset has found. -/
structure Found (code : Code) (offset : Nat) (is : List Instruction) (error : Option DecodeError) :
    Prop where
  /-- What a reader gives. -/
  gives : Gives ⟨code, offset, false⟩ ((offsets offset is).map .ok ++ (error.map .error).toList)
    ⟨code, offset + sizeAll is, error.isSome⟩
  /-- What is found at once. -/
  decode : ∀ found, code.decodeFrom found offset =
    ⟨found ++ (offsets offset is).toArray, offset + sizeAll is, error⟩
  /-- The instructions stand in the code. -/
  encode : encodeAll is <+: code.toList.drop offset
  /-- No instruction comes after them. -/
  stop : code.decodeAt (offset + sizeAll is) = error.map .error

/-- Reading begins with an instruction and goes on after it. -/
theorem Found.cons {i : Instruction} {is : List Instruction} {error : Option DecodeError}
    (hi : code.decodeAt offset = some (.ok i)) (h : Found code (offset + i.size) is error) :
    Found code offset (i :: is) error := by
  have hsize : offset + i.size + sizeAll is = offset + sizeAll (i :: is) := Nat.add_assoc ..
  refine ⟨?_, fun found => ?_, ?_, hsize ▸ h.stop⟩
  · refine .item ?_ (hsize ▸ h.gives)
    rw [next_eq, hi]
  · rw [Code.decodeFrom]
    split
    · next hnone => rw [hi] at hnone; cases hnone
    · next herror => rw [hi] at herror; cases herror
    · next j hj =>
      rw [hi] at hj
      cases hj
      have hpush : found.push (offset, i) ++ (offsets (offset + i.size) is).toArray =
          found ++ (offsets offset (i :: is)).toArray := Array.ext' (by simp [offsets])
      rw [h.decode, hpush, hsize]
  · obtain ⟨rest, hrest⟩ := Code.encode_of_decodeAt hi
    have hdrop : code.toList.drop (offset + i.size) = rest := by
      rw [← List.drop_drop, ← hrest, ← Instruction.length_encode]
      exact List.drop_left
    obtain ⟨back, hback⟩ := hdrop ▸ h.encode
    refine ⟨back, ?_⟩
    rw [Instruction.encodeAll_cons, List.append_assoc, hback, hrest]

/-- Reading stops where there is no instruction. -/
theorem Found.nil {error : Option DecodeError} (h : code.decodeAt offset = error.map .error) :
    Found code offset [] error := by
  refine ⟨?_, fun found => ?_, List.nil_prefix, h⟩
  · cases error with
    | none =>
      refine .nothing ?_
      rw [next_eq, h]
      rfl
    | some e =>
      refine .item ?_ (.nothing (next_of_failed code offset))
      rw [next_eq, h]
      rfl
  · rw [Code.decodeFrom, offsets, Array.append_empty]
    split
    · next hnone =>
      rw [h] at hnone
      rw [Option.map_eq_none_iff.1 hnone]
      rfl
    · next e herror =>
      rw [h] at herror
      obtain ⟨e', rfl, heq⟩ := Option.map_eq_some_iff.1 herror
      cases heq
      rfl
    · next i hi =>
      rw [h] at hi
      obtain ⟨e', -, heq⟩ := Option.map_eq_some_iff.1 hi
      cases heq

/-- **Reading comes to an end** wherever it begins. -/
theorem exists_found (code : Code) (offset : Nat) : ∃ is error, Found code offset is error := by
  -- What is left of the code gets shorter with every instruction.
  induction hleft : code.size - offset using Nat.strongRecOn generalizing offset with
  | _ left ih =>
    cases hdecode : code.decodeAt offset with
    | none => exact ⟨[], none, .nil hdecode⟩
    | some result =>
      cases result with
      | error e => exact ⟨[], some e, .nil hdecode⟩
      | ok i =>
        have hlt := Code.lt_size_of_decodeAt hdecode
        have hi := i.size_pos
        obtain ⟨is, error, hfound⟩ := ih (code.size - (offset + i.size)) (by omega) _ rfl
        exact ⟨i :: is, error, hfound.cons hdecode⟩

/-- A reader that has come to the end, or to an error, gives nothing any
more. -/
theorem Found.next_eq_none {is : List Instruction} {error : Option DecodeError}
    (h : Found code offset is error) :
    (⟨code, offset + sizeAll is, error.isSome⟩ : Reader).next =
      (none, ⟨code, offset + sizeAll is, error.isSome⟩) := by
  have hstop := h.stop
  cases error with
  | none =>
    rw [Option.isSome_none, next_eq, hstop]
    rfl
  | some e => exact next_of_failed code _

/-- What is found tells the error, and the error tells what is found. -/
theorem Found.error_iff {is : List Instruction} {error : Option DecodeError} {e : DecodeError}
    (h : Found code offset is error) :
    error = some e ↔ code.decodeAt (offset + sizeAll is) = some (.error e) := by
  rw [h.stop]
  cases error <;> simp

end Reader

namespace Code

/-- Reading finds no opcode where there is the byte of none. -/
theorem decodeAt_eq_invalidOpcode_iff {code : Code} {offset place : Nat} {byte : UInt8} :
    code.decodeAt place = some (.error (.invalidOpcode offset byte)) ↔
      offset = place ∧ code[offset]? = some byte ∧ ∀ op : Op, op.toByte ≠ byte := by
  rw [decodeAt_eq_error_iff]
  constructor
  · rintro (⟨_, heq, hbyte, hne⟩ | ⟨_, heq, -⟩)
    · cases heq
      exact ⟨rfl, hbyte, hne⟩
    · cases heq
  · rintro ⟨rfl, hbyte, hne⟩
    exact .inl ⟨byte, rfl, hbyte, hne⟩

/-- Reading finds an opcode without its operands where the code is too short for
them. -/
theorem decodeAt_eq_truncated_iff {code : Code} {offset place : Nat} {op : Op} :
    code.decodeAt place = some (.error (.truncated offset op)) ↔
      offset = place ∧ code[offset]? = some op.toByte ∧ code.size < offset + op.size := by
  rw [decodeAt_eq_error_iff]
  constructor
  · rintro (⟨_, heq, -⟩ | ⟨_, heq, hbyte, hlt⟩)
    · cases heq
    · cases heq
      exact ⟨rfl, hbyte, hlt⟩
  · rintro ⟨rfl, hbyte, hlt⟩
    exact .inr ⟨op, rfl, hbyte, hlt⟩

theorem toList_foldl_emit (code : Code) (is : List Instruction) :
    (is.foldl emit code).toList = code.toList ++ encodeAll is := by
  induction is generalizing code with
  | nil => exact (List.append_nil _).symm
  | cons i is ih =>
    rw [List.foldl_cons, ih, emit, Array.toList_appendList, List.append_assoc,
      Instruction.encodeAll_cons]

/-- **Writing undoes reading, whatever the bytes are.** A reader at the front of
some code gives instructions whose offsets begin at zero and leave no gap, then
at most one error, and then nothing any more. The instructions, written one
after the other, are the bytes up to where the reader stands. If there is no
error, it stands at the end and all bytes are those of instructions. An error is
about the place where the reader stands: the byte there is that of no opcode, or
it is that of an opcode whose operands the code is too short for. -/
theorem encoding_undoes_decoding (code : Code) : ∃ is error r,
    (∀ items r', (Reader.start code).Gives items r' ↔
      items = (offsets 0 is).map .ok ++ (error.map .error).toList ∧ r' = r) ∧
    r.next = (none, r) ∧
    code.decode = ⟨(offsets 0 is).toArray, r.offset, error⟩ ∧
    r.offset ≤ code.size ∧ is.foldl emit #[] = code.extract 0 r.offset ∧
    (error = none → r.isAtEnd = true ∧ is.foldl emit #[] = code) ∧
    (∀ offset byte, error = some (.invalidOpcode offset byte) ↔
      offset = r.offset ∧ code[offset]? = some byte ∧ ∀ op : Op, op.toByte ≠ byte) ∧
    ∀ offset op, error = some (.truncated offset op) ↔
      offset = r.offset ∧ code[offset]? = some op.toByte ∧ code.size < offset + op.size := by
  obtain ⟨is, error, h⟩ := Reader.exists_found code 0
  have hgives := h.gives
  have hnone := h.next_eq_none
  have hdecode := h.decode #[]
  have herror : ∀ {e}, error = some e ↔ code.decodeAt (0 + sizeAll is) = some (.error e) :=
    h.error_iff
  obtain ⟨rest, hrest⟩ := h.encode
  have hstop := h.stop
  rw [Nat.zero_add] at hgives hnone hdecode herror hstop
  rw [List.drop_zero] at hrest
  have hlength : sizeAll is + rest.length = code.size := by
    rw [← Instruction.length_encodeAll, ← List.length_append, hrest, Array.length_toList]
  have hwritten : (is.foldl emit #[]).toList = encodeAll is := by
    rw [toList_foldl_emit]
    rfl
  refine ⟨is, error, ⟨code, sizeAll is, error.isSome⟩, fun items r' => ⟨?_, ?_⟩, hnone, ?_, ?_, ?_,
    ?_, fun _ _ => herror.trans decodeAt_eq_invalidOpcode_iff,
    fun _ _ => herror.trans decodeAt_eq_truncated_iff⟩
  · exact fun hitems => hitems.unique hgives
  · rintro ⟨rfl, rfl⟩
    exact hgives
  · rw [decode, hdecode, Array.empty_append]
  · show sizeAll is ≤ code.size
    omega
  · apply Array.ext'
    rw [hwritten, Array.toList_extract, List.extract_eq_take_drop, List.drop_zero, ← hrest,
      Nat.sub_zero, ← Instruction.length_encodeAll, List.take_left]
  · rintro rfl
    -- Without an error, reading has stopped at the end of the code, so nothing
    -- is left over.
    have hend : code.size ≤ sizeAll is := decodeAt_eq_none_iff.1 hstop
    obtain rfl : rest = [] := List.eq_nil_of_length_eq_zero (by omega)
    refine ⟨decide_eq_true hend, Array.ext' ?_⟩
    rw [hwritten, ← hrest, List.append_nil]

end Code

end StackScript
