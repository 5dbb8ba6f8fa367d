import StackScript.Proofs.Code.Decoding

/-!
# Scripts that write code

Code is written by appending instructions, by filling in the targets of jumps
that wait for them, and by taking back or overwriting the last instruction. All
of this works on bytes. What a script of such actions should come to is better
said of a **draft**: a list of instructions, each with the offset that was
answered when it was written, and each jump with the target it was given, if
any.

A draft also says which scripts make sense: a jump is given a target once, while
it is there, and only the last instruction is taken back or overwritten. Main
statement: such a script is carried out on bytes with the same answers, and what
is read back is the draft (`Writer.script_decodes_to_draft`).
-/

namespace StackScript

open Instruction (encodeAll sizeAll offsets)

/-! ## Actions on bytes -/

/-- **What can be done to code that is being written.** A jump that waits for
its target is known by the number of such jumps before it. -/
inductive Action where
  /-- Append an instruction. -/
  | emit (i : Instruction)
  /-- Append a jump that waits for its target. -/
  | jump (conditional : Bool)
  /-- Make a waiting jump land at the end of the code. -/
  | bind (label : Nat)
  /-- Drop the code from an offset on. -/
  | truncate (offset : Nat)
  /-- Overwrite the opcode at an offset. -/
  | replace (offset : Nat) (op : Op)

/-- **What is answered.** -/
inductive Answer where
  /-- Something was appended at this offset. -/
  | placed (offset : Nat)
  /-- It is done. -/
  | done
  /-- The end of the code lies too far for a jump to land there. -/
  | outOfRange (target : Nat)
deriving DecidableEq

/-- **Code that is being written**, with the labels handed out so far. -/
structure Writer where
  /-- The code. -/
  code : Code
  /-- The labels, the first that was handed out first. -/
  labels : List Label

/-- Code with a jump appended that waits for its target. -/
def Code.emitForward (code : Code) (conditional : Bool) : Code × Label :=
  if conditional then code.emitJumpNotTruthy else code.emitJump

/-- **Carries out an action on bytes**; nothing if it goes wrong. -/
def Writer.perform (w : Writer) : Action → Option (Answer × Writer)
  | .emit i => some (.placed w.code.size, { w with code := w.code.emit i })
  | .jump conditional =>
    let (code, label) := w.code.emitForward conditional
    some (.placed w.code.size, ⟨code, w.labels ++ [label]⟩)
  | .bind label =>
    match w.labels[label]?.map w.code.bind with
    | some (.ok code) => some (.done, { w with code })
    | some (.error (.targetOutOfRange target)) => some (.outOfRange target, w)
    | some (.error .operandMissing) | none => none
  | .truncate offset => some (.done, { w with code := w.code.truncate offset })
  | .replace offset op => (w.code.replaceOp? offset op).map fun code => (.done, { w with code })

/-! ## Drafts -/

/-- The jump of a kind to a target. -/
def Instruction.forward (conditional : Bool) (target : UInt16) : Instruction :=
  if conditional then .jumpNotTruthy target else .jump target

/-- The instruction of an opcode that has no operands. -/
def Op.plain? (op : Op) : Option Instruction := Code.operandsAt? #[] op 0

/-- **Part of a draft.** -/
inductive Part where
  /-- An instruction that is there as it was written. -/
  | plain (i : Instruction)
  /-- A jump that was written without a target, and the target that it was
  given. -/
  | forward (conditional : Bool) (label : Nat) (target : Option Nat)

namespace Part

/-- The instruction of a part; a jump without a target leads to the greatest
offset there is. -/
def instruction : Part → Instruction
  | plain i => i
  | forward conditional _ target => .forward conditional (UInt16.ofNat (target.getD Code.maxTarget))

/-- The label of a jump that was written without a target. -/
def label? : Part → Option Nat
  | plain _ => none
  | forward _ label _ => some label

/-- Whether a part is a jump that waits for its target under a label. -/
def awaits (label : Nat) : Part → Bool
  | forward _ l none => l == label
  | _ => false

/-- The part with a target for the jump of a label. -/
def settle (label target : Nat) : Part → Part
  | forward conditional l none => forward conditional l (if l = label then some target else none)
  | part => part

end Part

/-- A part where it was placed. -/
structure Piece where
  /-- What was answered when it was written. -/
  offset : Nat
  /-- The part. -/
  part : Part

/-- What should be read back of a piece. -/
def Piece.entry (p : Piece) : Nat × Instruction := (p.offset, p.part.instruction)

/-- The instructions of some pieces. -/
def instructionsOf (ps : List Piece) : List Instruction := ps.map fun p => p.part.instruction

/-- The pieces with a target for the jump of a label. -/
def settleAll (label target : Nat) (ps : List Piece) : List Piece :=
  ps.map fun p => { p with part := p.part.settle label target }

/-- **What has been written, and how many labels have been handed out.** -/
structure Draft where
  /-- The pieces in order. -/
  pieces : List Piece
  /-- How many labels there are. -/
  labels : Nat

namespace Draft

/-- The bytes that a draft takes. -/
def size (d : Draft) : Nat := sizeAll (instructionsOf d.pieces)

/-- The pieces with one more at the end. -/
def add (d : Draft) (part : Part) : List Piece := d.pieces ++ [⟨d.size, part⟩]

/-- **Carries out an action on a draft**; nothing if it is not to be done. -/
def perform (d : Draft) : Action → Option (Answer × Draft)
  | .emit i => some (.placed d.size, { d with pieces := d.add (.plain i) })
  | .jump conditional =>
    some (.placed d.size, ⟨d.add (.forward conditional d.labels none), d.labels + 1⟩)
  | .bind label =>
    if d.pieces.any fun p => p.part.awaits label then
      if Code.maxTarget < d.size then some (.outOfRange d.size, d)
      else some (.done, { d with pieces := settleAll label d.size d.pieces })
    else none
  | .truncate offset =>
    match d.pieces.getLast? with
    | some p =>
      if p.offset = offset then some (.done, { d with pieces := d.pieces.dropLast }) else none
    | none => none
  | .replace offset op =>
    match d.pieces.getLast?, op.plain? with
    | some ⟨last, .plain i⟩, some j =>
      if last = offset ∧ i.operands = [] then
        some (.done, { d with pieces := d.pieces.dropLast ++ [⟨offset, .plain j⟩] })
      else none
    | _, _ => none

end Draft

/-- **Carries out a script**, one action after the other, with all answers. -/
def performAll {σ : Type} (perform : σ → Action → Option (Answer × σ)) (s : σ) :
    List Action → Option (List Answer × σ)
  | [] => some ([], s)
  | action :: script =>
    match perform s action with
    | none => none
    | some (answer, s₁) =>
      (performAll perform s₁ script).map fun result => (answer :: result.1, result.2)

/-! ## Pieces in their places -/

/-- Pieces that stand where they were placed. -/
def InPlace (start : Nat) (ps : List Piece) : Prop :=
  ps.map Piece.entry = offsets start (instructionsOf ps)

section

variable {start : Nat} {p : Piece} {ps qs : List Piece}

theorem instructionsOf_append (ps qs : List Piece) :
    instructionsOf (ps ++ qs) = instructionsOf ps ++ instructionsOf qs :=
  List.map_append

theorem inPlace_nil (start : Nat) : InPlace start [] := rfl

/-- Pieces stand in place if the first one does and the others do behind it. -/
theorem inPlace_cons : InPlace start (p :: ps) ↔
    p.offset = start ∧ InPlace (start + p.part.instruction.size) ps := by
  simp [InPlace, instructionsOf, offsets, Piece.entry]

/-- Two runs of pieces stand in place if the second begins where the first
ends. -/
theorem inPlace_append : InPlace start (ps ++ qs) ↔
    InPlace start ps ∧ InPlace (start + sizeAll (instructionsOf ps)) qs := by
  induction ps generalizing start with
  | nil => exact ⟨fun h => ⟨inPlace_nil start, h⟩, And.right⟩
  | cons p ps ih =>
    have hsize : start + p.part.instruction.size + sizeAll (instructionsOf ps) =
        start + sizeAll (instructionsOf (p :: ps)) := Nat.add_assoc ..
    rw [List.cons_append, inPlace_cons, inPlace_cons, ih, hsize, and_assoc]

end

/-! ## Drafts and bytes -/

/-- **A draft of what has been written.** -/
structure Draft.Describes (d : Draft) (w : Writer) : Prop where
  /-- The bytes are those of the pieces. -/
  code : w.code = (encodeAll (instructionsOf d.pieces)).toArray
  /-- The pieces are where they were placed. -/
  inPlace : InPlace 0 d.pieces
  /-- As many labels have been handed out as should have been. -/
  labels : w.labels.length = d.labels
  /-- A label leads to its jump. -/
  label : ∀ p ∈ d.pieces, ∀ l, p.part.label? = some l → w.labels[l]? = some (Code.labelAt p.offset)
  /-- No two jumps have one label. -/
  distinct : (d.pieces.filterMap fun p => p.part.label?).Nodup
  /-- A target is an offset that an operand can hold. -/
  target : ∀ p ∈ d.pieces, ∀ conditional l t, p.part = .forward conditional l (some t) →
    t ≤ Code.maxTarget

namespace Draft.Describes

variable {d : Draft} {w : Writer} {p : Piece} {front back : List Piece}

/-- Nothing has been written, and the draft is empty. -/
theorem empty : Describes ⟨[], 0⟩ ⟨#[], []⟩ where
  code := rfl
  inPlace := rfl
  labels := rfl
  label := nofun
  distinct := List.nodup_nil
  target := nofun

/-- A draft takes as many bytes as the code that it describes. Offsets are
answered by both alike. -/
theorem size_eq (h : d.Describes w) : w.code.size = d.size := by
  rw [h.code, Code.size_encodeAll]
  rfl

/-- A label in the draft is one that has been handed out, so that a new label is
not in use. -/
theorem label_lt (h : d.Describes w) (hp : p ∈ d.pieces) {l : Nat} (hl : p.part.label? = some l) :
    l < d.labels := by
  rw [← h.labels]
  exact (List.getElem?_eq_some_iff.1 (h.label p hp l hl)).1

/-- **A part is appended**, with a label if it is a jump that waits for its
target. -/
theorem add (h : d.Describes w) (part : Part) (extra : List Label)
    (hlabel : ∀ l, part.label? = some l → l = d.labels ∧ extra = [Code.labelAt w.code.size])
    (htarget : ∀ conditional l t, part ≠ .forward conditional l (some t)) :
    Describes ⟨d.add part, d.labels + extra.length⟩
      ⟨w.code.emit part.instruction, w.labels ++ extra⟩ where
  code := by
    apply Array.ext'
    rw [Code.emit, Array.toList_appendList, h.code, Draft.add, instructionsOf_append,
      Instruction.encodeAll_append]
    simp [instructionsOf]
  inPlace := inPlace_append.2 ⟨h.inPlace, inPlace_cons.2 ⟨(Nat.zero_add _).symm, inPlace_nil _⟩⟩
  labels := by rw [List.length_append, h.labels]
  label := by
    intro p hp l hl
    rcases List.mem_append.1 hp with hp | hp
    · rw [List.getElem?_append_left (h.labels ▸ h.label_lt hp hl)]
      exact h.label p hp l hl
    · cases List.mem_singleton.1 hp
      obtain ⟨rfl, rfl⟩ := hlabel l hl
      rw [List.getElem?_append_right (Nat.le_of_eq h.labels), h.labels, Nat.sub_self, h.size_eq]
      rfl
  distinct := by
    rw [Draft.add, List.filterMap_append]
    refine List.nodup_append.2 ⟨h.distinct, ?_, ?_⟩
    · cases hl : part.label? <;> simp [hl]
    · -- The label of the new jump has not been handed out before.
      intro l hl l' hnew
      obtain ⟨p, hp, hpl⟩ := List.mem_filterMap.1 hl
      obtain ⟨q, hq, hql⟩ := List.mem_filterMap.1 hnew
      cases List.mem_singleton.1 hq
      obtain ⟨rfl, -⟩ := hlabel l' hql
      exact Nat.ne_of_lt (h.label_lt hp hpl)
  target := by
    intro p hp conditional l t ht
    rcases List.mem_append.1 hp with hp | hp
    · exact h.target p hp conditional l t ht
    · cases List.mem_singleton.1 hp
      exact (htarget conditional l t ht).elim

/-- An instruction without a label is added. -/
theorem addPlain (h : d.Describes w) (i : Instruction) :
    Describes ⟨d.add (.plain i), d.labels⟩ { w with code := w.code.emit i } := by
  have hlabel : ∀ l, (Part.plain i).label? = some l →
      l = d.labels ∧ [] = [Code.labelAt w.code.size] := by
    intro l hl
    cases hl
  have htarget : ∀ conditional l t, Part.plain i ≠ .forward conditional l (some t) := by
    intro conditional l t heq
    cases heq
  have hadded := h.add (.plain i) [] hlabel htarget
  rw [List.append_nil] at hadded
  exact hadded

/-- The last piece is taken back. -/
theorem dropLast (h : d.Describes w) (hlast : d.pieces = front ++ [p]) :
    Describes { d with pieces := front } { w with code := w.code.truncate p.offset } := by
  have hinPlace := h.inPlace
  have hdistinct := h.distinct
  rw [hlast] at hinPlace hdistinct
  obtain ⟨hfront, hp⟩ := inPlace_append.1 hinPlace
  have hoffset : p.offset = 0 + sizeAll (instructionsOf front) := (inPlace_cons.1 hp).1
  have hmem : ∀ q ∈ front, q ∈ d.pieces := fun q hq => hlast ▸ List.mem_append_left _ hq
  rw [List.filterMap_append] at hdistinct
  refine ⟨?_, hfront, h.labels, fun q hq => h.label q (hmem q hq),
    (List.nodup_append.1 hdistinct).1, fun q hq => h.target q (hmem q hq)⟩
  apply Array.ext'
  rw [Code.truncate, h.code, hlast, hoffset, Nat.zero_add, instructionsOf_append,
    Instruction.encodeAll_append, ← Instruction.length_encodeAll]
  simp

/-- The last piece is overwritten by another of the same width. -/
theorem replaceLast (h : d.Describes w) {offset : Nat} {i j : Instruction}
    (hlast : d.pieces = front ++ [⟨offset, .plain i⟩]) (hi : i.operands = [])
    (hj : j.operands = []) :
    ∃ code, w.code.replaceOp? offset j.op = some code ∧
      Describes { d with pieces := front ++ [⟨offset, .plain j⟩] } { w with code } := by
  have hinPlace := h.inPlace
  rw [hlast] at hinPlace
  have hoffset : offset = sizeAll (instructionsOf front) :=
    (inPlace_cons.1 (inPlace_append.1 hinPlace).2).1.trans (Nat.zero_add _)
  have hcode : w.code.toList = encodeAll (instructionsOf front) ++ [i.op.toByte] := by
    rw [h.code, hlast, instructionsOf_append, Instruction.encodeAll_append]
    simp [instructionsOf, Part.instruction, Instruction.encode, hi]
  have hlt : offset < w.code.size := by
    rw [← Array.length_toList, hcode, List.length_append, Instruction.length_encodeAll, hoffset]
    exact Nat.lt_succ_self _
  -- What is overwritten could have been taken back and written anew.
  have hnew : w.code.setIfInBounds offset j.op.toByte = (w.code.truncate offset).emit j := by
    apply Array.ext'
    rw [Array.toList_setIfInBounds, hcode, Code.emit, Array.toList_appendList, Code.truncate,
      Array.toList_shrink, hcode, hoffset, ← Instruction.length_encodeAll, List.take_left]
    simp [Instruction.encode, hj]
  have hadded := (h.dropLast hlast).addPlain j
  refine ⟨w.code.setIfInBounds offset j.op.toByte, if_pos hlt, ?_⟩
  rw [hnew, hoffset]
  rw [hoffset] at hadded
  exact hadded

end Draft.Describes

/-! ## Filling in targets -/

/-- A jump is its opcode and its target. Filling in the target later changes the
last two bytes only. -/
theorem Instruction.exists_encode_forward (conditional : Bool) :
    ∃ op, ∀ t, (forward conditional t).encode = op :: wide t := by
  cases conditional with
  | false => exact ⟨Op.jump.toByte, fun _ => rfl⟩
  | true => exact ⟨Op.jumpNotTruthy.toByte, fun _ => rfl⟩

namespace Part

variable {part : Part} {label target : Nat}

/-- A part that waits for its target is a jump without one. -/
theorem eq_forward_of_awaits (h : part.awaits label = true) :
    ∃ conditional, part = forward conditional label none := by
  cases part with
  | plain i => cases h
  | forward conditional l t =>
    cases t with
    | some t => cases h
    | none => exact ⟨conditional, congrArg (forward conditional · none) (eq_of_beq h)⟩

/-- A jump keeps its label when it is given its target. -/
theorem label?_settle : (part.settle label target).label? = part.label? := by
  cases part with
  | plain i => rfl
  | forward conditional l t => cases t <;> rfl

/-- A jump with a target had it before, or has been given it now. -/
theorem of_settle_eq {conditional : Bool} {l t : Nat}
    (h : part.settle label target = forward conditional l (some t)) :
    part = forward conditional l (some t) ∨ t = target := by
  cases part with
  | plain i => cases h
  | forward conditional' l' t' =>
    cases t' with
    | some t' => exact .inl h
    | none =>
      rw [settle] at h
      split at h <;> cases h
      exact .inr rfl

/-- A part under another label does not change. -/
theorem settle_of_ne (h : part.label? ≠ some label) : part.settle label target = part := by
  cases part with
  | plain i => rfl
  | forward conditional l t =>
    cases t with
    | some t => rfl
    | none =>
      have hl : l ≠ label := fun heq => h (congrArg some heq)
      rw [settle, if_neg hl]

/-- A jump takes three bytes, whether it has a target or not. -/
theorem size_forward (conditional : Bool) (l : Nat) (t : Option Nat) :
    (forward conditional l t).instruction.size = 3 := by
  cases conditional <;> rfl

/-- So a target does not change the size of a part, and nothing behind it
moves. -/
theorem size_settle : (part.settle label target).instruction.size = part.instruction.size := by
  cases part with
  | plain i => rfl
  | forward conditional l t =>
    cases t with
    | some t => rfl
    | none => rw [settle, size_forward, size_forward]

end Part

section

variable {start label target : Nat} {p : Piece} {ps front back : List Piece}

/-- Pieces stay in place when a jump among them is given its target. -/
theorem InPlace.settleAll (h : InPlace start ps) : InPlace start (settleAll label target ps) := by
  induction ps generalizing start with
  | nil => exact h
  | cons p ps ih =>
    obtain ⟨hp, hps⟩ := inPlace_cons.1 h
    exact inPlace_cons.2 ⟨hp, Part.size_settle.symm ▸ ih hps⟩

/-- The labels in a draft stay the same. -/
theorem filterMap_settleAll : (settleAll label target ps).filterMap (fun p => p.part.label?) =
    ps.filterMap fun p => p.part.label? := by
  rw [settleAll, List.filterMap_map]
  exact congrArg (List.filterMap · ps) (funext fun _ => Part.label?_settle)

/-- A label that is not in use has no jump to give a target to. -/
theorem settleAll_of_notMem (h : label ∉ ps.filterMap fun p => p.part.label?) :
    settleAll label target ps = ps := by
  rw [settleAll, List.map_congr_left, List.map_id]
  intro p hp
  have hne : p.part.label? ≠ some label := fun hl => h (List.mem_filterMap.2 ⟨p, hp, hl⟩)
  show (⟨p.offset, p.part.settle label target⟩ : Piece) = p
  rw [Part.settle_of_ne hne]

/-- Only one jump gets a target. -/
theorem settleAll_eq (hdistinct : ((front ++ p :: back).filterMap fun p => p.part.label?).Nodup)
    (hp : p.part.label? = some label) :
    settleAll label target (front ++ p :: back) =
      front ++ ⟨p.offset, p.part.settle label target⟩ :: back := by
  have hcons : (p :: back).filterMap (fun p => p.part.label?) =
      label :: back.filterMap fun p => p.part.label? := List.filterMap_cons_some hp
  rw [List.filterMap_append, hcons, List.nodup_append, List.nodup_cons] at hdistinct
  obtain ⟨-, ⟨hback, -⟩, hfront⟩ := hdistinct
  have hfront' : label ∉ front.filterMap fun p => p.part.label? :=
    fun hmem => hfront label hmem label List.mem_cons_self rfl
  rw [settleAll, List.map_append, List.map_cons]
  exact congr (congrArg _ (settleAll_of_notMem hfront')) (congrArg _ (settleAll_of_notMem hback))

end

namespace Draft.Describes

variable {d : Draft} {w : Writer} {p : Piece} {front back : List Piece}

/-- **A waiting jump is given its target.** -/
theorem settle (h : d.Describes w) {label : Nat}
    (hawaits : (d.pieces.any fun p => p.part.awaits label) = true)
    (hsize : d.size ≤ Code.maxTarget) :
    ∃ l code, w.labels[label]? = some l ∧ w.code.bind l = .ok code ∧
      Describes { d with pieces := settleAll label d.size d.pieces } { w with code } := by
  obtain ⟨p, hp, hpart⟩ := List.any_eq_true.1 hawaits
  obtain ⟨conditional, hforward⟩ := Part.eq_forward_of_awaits hpart
  have hlabel : p.part.label? = some label := by
    rw [hforward]
    rfl
  obtain ⟨front, back, hpieces⟩ := List.append_of_mem hp
  have hinPlace := h.inPlace
  have hdistinct := h.distinct
  rw [hpieces] at hinPlace hdistinct
  have hoffset : p.offset = sizeAll (instructionsOf front) :=
    (inPlace_cons.1 (inPlace_append.1 hinPlace).2).1.trans (Nat.zero_add _)
  -- The bytes of the jump: all but the opcode are the target.
  obtain ⟨op, hop⟩ := Instruction.exists_encode_forward conditional
  have hbytes : ∀ t,
      encodeAll (instructionsOf (front ++ ⟨p.offset, .forward conditional label t⟩ :: back)) =
        encodeAll (instructionsOf front) ++
          (op :: Instruction.wide (UInt16.ofNat (t.getD Code.maxTarget)) ++
            encodeAll (instructionsOf back)) := by
    intro t
    rw [instructionsOf_append, Instruction.encodeAll_append, ← hop]
    rfl
  have hp' : p = ⟨p.offset, .forward conditional label none⟩ := by rw [← hforward]
  have hcode := h.code
  rw [hpieces, hp', hbytes] at hcode
  have hfits : p.offset + 3 ≤ w.code.size := by
    rw [hcode, hoffset, ← Instruction.length_encodeAll]
    simp [Instruction.wide]
  have hroom : ¬ w.code.size < (Code.labelAt p.offset).operand + 2 := Nat.not_lt.2 hfits
  have hsettled : settleAll label d.size d.pieces =
      front ++ ⟨p.offset, .forward conditional label (some d.size)⟩ :: back := by
    rw [hpieces, settleAll_eq hdistinct hlabel, hforward, Part.settle, if_pos rfl]
  refine ⟨Code.labelAt p.offset, w.code.patch (p.offset + 1) (UInt16.ofNat w.code.size),
    h.label p hp label hlabel, ?_, ?_⟩
  · rw [Code.bind, if_neg (h.size_eq ▸ Nat.not_lt.2 hsize), if_neg hroom]
    rfl
  · refine ⟨?_, h.inPlace.settleAll, h.labels, ?_, ?_, ?_⟩
    · rw [hsettled, hbytes, h.size_eq, hcode, hoffset, ← Instruction.length_encodeAll]
      exact Code.patch_hole _ _ _ _ _
    · intro q hq l hl
      obtain ⟨q', hq', rfl⟩ := List.mem_map.1 hq
      exact h.label q' hq' l (Part.label?_settle.symm.trans hl)
    · rw [filterMap_settleAll]
      exact h.distinct
    · intro q hq c l t ht
      obtain ⟨q', hq', rfl⟩ := List.mem_map.1 hq
      rcases Part.of_settle_eq ht with ht | rfl
      · exact h.target q' hq' c l t ht
      · exact hsize

end Draft.Describes

/-- A jump cannot be made to land too far, and nothing changes. -/
theorem Writer.perform_bind_of_lt {w : Writer} {label : Nat} (hlabel : label < w.labels.length)
    (hsize : Code.maxTarget < w.code.size) :
    w.perform (.bind label) = some (.outOfRange w.code.size, w) := by
  obtain ⟨l, hl⟩ : ∃ l, w.labels[label]? = some l := ⟨_, List.getElem?_eq_getElem hlabel⟩
  have hbind : w.code.bind l = .error (.targetOutOfRange w.code.size) := if_pos hsize
  rw [perform, hl, Option.map_some, hbind]

namespace Draft.Describes

variable {d : Draft} {w : Writer}

/-- **An action on a draft is carried out on bytes with the same answer.** -/
theorem perform (h : d.Describes w) {action : Action} {answer : Answer} {d' : Draft}
    (hd' : d.perform action = some (answer, d')) :
    ∃ w', w.perform action = some (answer, w') ∧ d'.Describes w' := by
  cases action with
  | emit i =>
    cases hd'
    refine ⟨{ w with code := w.code.emit i }, ?_, ?_⟩
    · rw [← h.size_eq]
      rfl
    · exact h.addPlain i
  | jump conditional =>
    cases hd'
    have hadded := h.add (.forward conditional d.labels none) [Code.labelAt w.code.size]
      (fun l hl => ⟨(Option.some.inj hl).symm, rfl⟩) nofun
    refine ⟨_, ?_, hadded⟩
    rw [← h.size_eq]
    cases conditional <;> rfl
  | bind label =>
    rw [Draft.perform] at hd'
    split at hd'
    · next hawaits =>
      split at hd'
      · next hlarge =>
        cases hd'
        obtain ⟨p, hp, hpart⟩ := List.any_eq_true.1 hawaits
        obtain ⟨conditional, hforward⟩ := Part.eq_forward_of_awaits hpart
        have hlt : label < w.labels.length :=
          h.labels.symm ▸ h.label_lt hp (hforward.symm ▸ rfl : p.part.label? = some label)
        -- The target does not fit, and both refuse it without a change.
        rw [← h.size_eq] at hlarge ⊢
        exact ⟨w, Writer.perform_bind_of_lt hlt hlarge, h⟩
      · next hsize =>
        cases hd'
        obtain ⟨l, code, hl, hcode, h'⟩ := h.settle hawaits (Nat.not_lt.1 hsize)
        refine ⟨{ w with code }, ?_, h'⟩
        rw [Writer.perform, hl, Option.map_some, hcode]
    · cases hd'
  | truncate offset =>
    rw [Draft.perform] at hd'
    split at hd'
    · next p hlast =>
      split at hd'
      · next hoffset =>
        cases hd'
        subst hoffset
        obtain ⟨front, hfront⟩ := List.getLast?_eq_some_iff.1 hlast
        refine ⟨_, rfl, ?_⟩
        rw [hfront, List.dropLast_concat]
        exact h.dropLast hfront
      · cases hd'
    · cases hd'
  | replace offset op =>
    rw [Draft.perform] at hd'
    split at hd'
    · next last i j hlast hj =>
      split at hd'
      · next hsame =>
        cases hd'
        obtain ⟨rfl, hi⟩ := hsame
        obtain ⟨front, hfront⟩ := List.getLast?_eq_some_iff.1 hlast
        -- An opcode without operands is one byte, as is what it replaces.
        obtain ⟨rfl, hoperands⟩ := Code.operands_of_operandsAt? hj
        obtain ⟨code, hcode, h'⟩ := h.replaceLast hfront hi (List.prefix_nil.1 hoperands)
        refine ⟨{ w with code }, ?_, ?_⟩
        · rw [Writer.perform, hcode]
          rfl
        · rw [hfront, List.dropLast_concat]
          exact h'
      · cases hd'
    · cases hd'

/-- **So is a script.** -/
theorem performAll (h : d.Describes w) {script : List Action} {answers : List Answer} {d' : Draft}
    (hd' : StackScript.performAll Draft.perform d script = some (answers, d')) :
    ∃ w', StackScript.performAll Writer.perform w script = some (answers, w') ∧
      d'.Describes w' := by
  induction script generalizing d w answers with
  | nil =>
    cases hd'
    exact ⟨w, rfl, h⟩
  | cons action script ih =>
    rw [StackScript.performAll] at hd'
    cases haction : d.perform action with
    | none =>
      rw [haction] at hd'
      cases hd'
    | some result =>
      obtain ⟨answer, d₁⟩ := result
      rw [haction] at hd'
      obtain ⟨⟨answers', d₂⟩, hrest, heq⟩ := Option.map_eq_some_iff.1 hd'
      cases heq
      obtain ⟨w₁, hw₁, h₁⟩ := h.perform haction
      obtain ⟨w', hw', h'⟩ := ih h₁ hrest
      refine ⟨w', ?_, h'⟩
      rw [StackScript.performAll, hw₁]
      exact Option.map_eq_some_iff.2 ⟨_, hw', rfl⟩

end Draft.Describes

/-- **What a script has written is read back as its draft.** Every script that
can be carried out on a draft is carried out on bytes with the same answers. The
bytes are then read back without an error as the instructions that have been
retained, at the offsets that were answered when they were written. A jump that
was written without a target leads to where the code ended when it was given
one, and to the greatest offset there is if it never was. Where the code is too
long for a jump to land at its end, the answer says so, and nothing changes. -/
theorem Writer.script_decodes_to_draft {script : List Action} {answers : List Answer} {d : Draft}
    (h : performAll Draft.perform ⟨[], 0⟩ script = some (answers, d)) :
    ∃ w, performAll Writer.perform ⟨#[], []⟩ script = some (answers, w) ∧
      w.code.decode = ⟨(d.pieces.map Piece.entry).toArray, w.code.size, none⟩ ∧
      (∀ p ∈ d.pieces, ∀ conditional label t, p.part = .forward conditional label t →
        ∃ target, p.part.instruction = .forward conditional target ∧
          target.toNat = t.getD Code.maxTarget) ∧
      ∀ label, label < w.labels.length → Code.maxTarget < w.code.size →
        w.perform (.bind label) = some (.outOfRange w.code.size, w) := by
  obtain ⟨w, hw, hdescribes⟩ := Draft.Describes.empty.performAll h
  refine ⟨w, hw, ?_, ?_, fun label => Writer.perform_bind_of_lt⟩
  · rw [hdescribes.code, Code.decode_encodeAll, hdescribes.inPlace, Code.size_encodeAll]
  · intro p hp conditional label t ht
    refine ⟨UInt16.ofNat (t.getD Code.maxTarget), by rw [ht, Part.instruction], ?_⟩
    have hle : t.getD Code.maxTarget ≤ Code.maxTarget := by
      cases t with
      | none => exact Nat.le_refl _
      | some t => exact hdescribes.target p hp conditional label t ht
    exact UInt16.toNat_ofNat_of_lt (Nat.lt_succ_of_le hle)

/-- A jump is taken back, an instruction is overwritten, the first jump is given
its target, and the last one never gets any. -/
theorem Writer.script_decodes_to_draft_patched :
    let script : List Action :=
      [.jump true, .emit (.constant 7), .jump false, .truncate 6, .emit .pop,
      .replace 6 .returnValue, .bind 0, .emit .returnNull, .jump false]
    ∃ w, performAll Writer.perform ⟨#[], []⟩ script = some ([.placed 0, .placed 3, .placed 6, .done,
        .placed 6, .done, .done, .placed 7, .placed 8], w) ∧
      w.code.decode = ⟨#[(0, .jumpNotTruthy 7), (3, .constant 7), (6, .returnValue),
        (7, .returnNull), (8, .jump 65535)], w.code.size, none⟩ := by
  intro script
  obtain ⟨w, hw, hdecode, -⟩ := @Writer.script_decodes_to_draft script _ _ rfl
  exact ⟨w, hw, hdecode⟩

end StackScript
