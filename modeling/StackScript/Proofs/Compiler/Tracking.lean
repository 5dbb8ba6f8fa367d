import Mathlib.Data.List.Nodup
import StackScript.Compiler.Fragment
import StackScript.Proofs.Code.Scripts

/-!
# The last instruction of code being written

A fragment remembers the opcode and the offset of its last instruction, and only
on this ground is an instruction taken back or overwritten. What it remembers
has to be true, then: of the instructions that the code is made of, the last one
has the opcode and is at the offset. The code is not only appended to. A value
that is discarded last may be taken back, so that the instruction before becomes
the last again, and a jump is given its target long after it has been written.

The code is described by a draft, as that of a script is: the pieces that it is
made of, some of them jumps that still wait for a target. Beside the fragment
stand its `Jumps`, the labels that have been handed out for such jumps and the
targets that jumps have been given. `Fragment.Tracked` says that what is
remembered is true of a draft. Each way to change a fragment keeps it: appending
an instruction or a jump, settling a jump, taking back the last instruction or
making it a return. The last three ask for something in return, and the last two
for the same: that the last instruction discards a value.

Two things follow of a fragment that is tracked. What is read back from its code
ends in what it remembers (`Tracked.knowsLast`). And if that discards a value,
it is the last byte of the code, and it can go without harm to a jump
(`Tracked.endsInPop`).
-/

namespace StackScript

open Instruction (encodeAll sizeAll)

/-- **The forward jumps of one function being compiled.** -/
structure Jumps where
  /-- The labels of the jumps that wait for their targets, the latest first. -/
  waiting : List Label
  /-- The targets that jumps have been given. -/
  targets : List Nat

/-- No jumps yet. -/
def Jumps.none : Jumps := ⟨[], []⟩

/-! ## Sizes and opcodes of pieces -/

section

variable {start label target : Nat} {part : Part} {p : Piece} {ps : List Piece}

/-- A piece ends before the pieces do. -/
theorem InPlace.offset_add_size_le (h : InPlace start ps) (hp : p ∈ ps) :
    p.offset + p.part.instruction.size ≤ start + sizeAll (instructionsOf ps) := by
  obtain ⟨front, back, rfl⟩ := List.append_of_mem hp
  have hoffset := (inPlace_cons.1 (inPlace_append.1 h).2).1
  have hsize : sizeAll (instructionsOf (front ++ p :: back)) =
      sizeAll (instructionsOf front) +
        (p.part.instruction.size + sizeAll (instructionsOf back)) := by
    rw [instructionsOf_append, Instruction.sizeAll_append]
    rfl
  omega

/-- A jump keeps its opcode when it is given its target. -/
theorem Part.op_settle : (part.settle label target).instruction.op = part.instruction.op := by
  cases part with
  | plain i => rfl
  | forward conditional l t =>
    cases t with
    | some t => rfl
    | none => cases conditional <;> rfl

/-- Nothing in a draft moves when a jump is given its target. -/
theorem sizeAll_settleAll :
    sizeAll (instructionsOf (settleAll label target ps)) = sizeAll (instructionsOf ps) := by
  induction ps with
  | nil => rfl
  | cons p ps ih =>
    show Instruction.size _ + sizeAll _ = Instruction.size _ + sizeAll _
    rw [Part.size_settle]
    exact congrArg (_ + ·) ih

/-- A part that discards a value is just that. -/
theorem Part.eq_plain_pop (h : part.instruction.op = .pop) : part = plain .pop := by
  cases part with
  | plain i => cases i <;> cases h; rfl
  | forward conditional l t => cases conditional <;> cases h

/-- What should be known of the last of some pieces. -/
def lastEmitted (ps : List Piece) : Option Emitted :=
  ps.getLast?.map fun p => ⟨p.part.instruction.op, p.offset⟩

/-- What has been appended is what is known to be last. -/
theorem lastEmitted_concat (ps : List Piece) (p : Piece) :
    lastEmitted (ps ++ [p]) = some ⟨p.part.instruction.op, p.offset⟩ := by
  rw [lastEmitted, List.getLast?_concat]
  rfl

/-- What is known of the last instruction is not about its target. So a jump
that is last may be given one. -/
theorem lastEmitted_settleAll : lastEmitted (settleAll label target ps) = lastEmitted ps := by
  rw [lastEmitted, settleAll, List.getLast?_map, Option.map_map]
  refine congrArg (Option.map · ps.getLast?) (funext fun p => ?_)
  simp [Part.op_settle]

/-- A piece more makes a draft longer by its size. -/
theorem Draft.size_add (d : Draft) (part : Part) (labels : Nat) :
    Draft.size ⟨d.add part, labels⟩ = d.size + part.instruction.size := by
  rw [Draft.size, Draft.add, instructionsOf_append, Instruction.sizeAll_append]
  rfl

end

/-! ## Fragments -/

namespace Fragment

/-- **What is known of a fragment's last instruction is true of a draft of its
code.** The instruction before it is only known as long as a value is discarded
by the last: it is not known any more when the last has been taken back, until
something else is appended. -/
structure Drafted (f : Fragment) (j : Jumps) (d : Draft) (labels : List Label) : Prop where
  /-- The draft is one of the code. -/
  describes : d.Describes ⟨f.code, labels⟩
  /-- The last instruction is known. -/
  last : f.last = lastEmitted d.pieces
  /-- So is the one before it, if the last one discards a value. -/
  previous : f.lastIs .pop = true → f.previous = lastEmitted d.pieces.dropLast
  /-- No two values are discarded one after the other. -/
  apart : f.lastIs .pop = true → ∀ e ∈ f.previous, e.op ≠ .pop
  /-- A label that waits is that of a jump without a target. -/
  waiting : ∀ l ∈ j.waiting, ∃ p ∈ d.pieces, ∃ conditional n, p.part = .forward conditional n none ∧
    l = Code.labelAt p.offset
  /-- No label waits twice. -/
  nodup : j.waiting.Nodup
  /-- A target is in the code, and not behind a value that is discarded last. -/
  targets : ∀ t ∈ j.targets, t ≤ d.size ∧ (f.lastIs .pop = true → t < d.size)

/-- **A fragment whose last instruction is known.** -/
def Tracked (f : Fragment) (j : Jumps) : Prop := ∃ d labels, f.Drafted j d labels

/-- The last instruction has another opcode, or none is known. -/
theorem lastIs_eq_false_iff {f : Fragment} {op : Op} :
    f.lastIs op = false ↔ ∀ e ∈ f.last, e.op ≠ op := by
  unfold lastIs
  cases f.last <;> simp

/-- The last instruction is known, and has this opcode. -/
theorem lastIs_eq_true_iff {f : Fragment} {op : Op} :
    f.lastIs op = true ↔ ∃ offset, f.last = some ⟨op, offset⟩ := by
  unfold lastIs
  cases f.last with
  | none => simp
  | some e =>
    obtain ⟨op', offset⟩ := e
    simp

namespace Drafted

variable {f : Fragment} {j : Jumps} {d : Draft} {labels : List Label}

/-- Less has to be said where no value is discarded last. -/
theorem of_not_pop (hdescribes : d.Describes ⟨f.code, labels⟩)
    (hlast : f.last = lastEmitted d.pieces) (hpop : f.lastIs .pop = false)
    (hwaiting : ∀ l ∈ j.waiting, ∃ p ∈ d.pieces, ∃ conditional n,
      p.part = .forward conditional n none ∧ l = Code.labelAt p.offset)
    (hnodup : j.waiting.Nodup) (htargets : ∀ t ∈ j.targets, t ≤ d.size) : f.Drafted j d labels where
  describes := hdescribes
  last := hlast
  previous hyes := absurd hyes (by rw [hpop]; exact Bool.false_ne_true)
  apart hyes := absurd hyes (by rw [hpop]; exact Bool.false_ne_true)
  waiting := hwaiting
  nodup := hnodup
  targets t ht := ⟨htargets t ht, fun hyes => absurd hyes (by rw [hpop]; exact Bool.false_ne_true)⟩

theorem size_eq (h : f.Drafted j d labels) : f.code.size = d.size := h.describes.size_eq

/-- The bytes for the target of a waiting jump are there. -/
theorem operand_le (h : f.Drafted j d labels) {l : Label} (hl : l ∈ j.waiting) :
    l.operand + 2 ≤ d.size := by
  obtain ⟨p, hp, conditional, n, hpart, rfl⟩ := h.waiting l hl
  have hle := h.describes.inPlace.offset_add_size_le hp
  rw [hpart, Part.size_forward, Nat.zero_add] at hle
  exact hle

/-- **A part is appended.** -/
theorem add (h : f.Drafted j d labels) {g : Fragment} {part : Part} {extra : List Label}
    (hdescribes : Draft.Describes ⟨d.add part, d.labels + extra.length⟩ ⟨g.code, labels ++ extra⟩)
    (hlast : g.last = some ⟨part.instruction.op, f.code.size⟩) (hprevious : g.previous = f.last)
    (hpop : part.instruction.op = .pop → f.lastIs .pop = false) (hnodup : extra.Nodup)
    (hextra : ∀ l ∈ extra, l = Code.labelAt f.code.size ∧
      ∃ conditional n, part = .forward conditional n none) :
    g.Drafted ⟨extra ++ j.waiting, j.targets⟩ ⟨d.add part, d.labels + extra.length⟩
      (labels ++ extra) := by
  have hadded : d.pieces ++ [⟨d.size, part⟩] = d.add part := rfl
  have hlt : d.size < Draft.size ⟨d.add part, d.labels + extra.length⟩ := by
    rw [Draft.size_add]
    exact Nat.lt_add_of_pos_right part.instruction.size_pos
  refine ⟨hdescribes, ?_, ?_, ?_, ?_, ?_, ?_⟩
  · rw [hlast, ← hadded, lastEmitted_concat, h.size_eq]
  · rw [hprevious, h.last, ← hadded, List.dropLast_concat]
    exact fun _ => rfl
  · intro hg e he
    -- A second discarding instruction is never appended after another.
    have hop : part.instruction.op = .pop := by
      rw [lastIs, hlast] at hg
      exact eq_of_beq hg
    rw [hprevious] at he
    exact lastIs_eq_false_iff.1 (hpop hop) e he
  · intro l hl
    rcases List.mem_append.1 hl with hl | hl
    · obtain ⟨rfl, conditional, n, hpart⟩ := hextra l hl
      exact ⟨⟨d.size, part⟩, List.mem_append_right _ List.mem_cons_self, conditional, n, hpart,
        by rw [h.size_eq]⟩
    · obtain ⟨p, hp, hwaits⟩ := h.waiting l hl
      exact ⟨p, List.mem_append_left _ hp, hwaits⟩
  · refine List.nodup_append.2 ⟨hnodup, h.nodup, ?_⟩
    rintro l hl l' hl' rfl
    obtain ⟨rfl, -⟩ := hextra l hl
    -- A label that waits is that of a jump within the code, and the new one is
    -- behind it.
    have hle : f.code.size + 1 + 2 ≤ d.size := h.operand_le hl'
    have hsize := h.size_eq
    omega
  · intro t ht
    have hle := (h.targets t ht).1
    exact ⟨by omega, fun _ => by omega⟩

/-- The last piece, if it discards a value. -/
theorem exists_pop (h : f.Drafted j d labels) (hpop : f.lastIs .pop = true) :
    ∃ front offset, d.pieces = front ++ [⟨offset, .plain .pop⟩] ∧ f.last = some ⟨.pop, offset⟩ ∧
      offset = sizeAll (instructionsOf front) ∧ d.size = offset + 1 := by
  obtain ⟨offset, hlast⟩ := lastIs_eq_true_iff.1 hpop
  obtain ⟨⟨offset', part⟩, hp, heq⟩ := Option.map_eq_some_iff.1 (h.last.symm.trans hlast)
  obtain ⟨hop, rfl⟩ := Emitted.mk.inj heq
  obtain rfl := Part.eq_plain_pop hop
  obtain ⟨front, hpieces⟩ := List.getLast?_eq_some_iff.1 hp
  have hinPlace := h.describes.inPlace
  rw [hpieces] at hinPlace
  have hoffset : offset' = 0 + sizeAll (instructionsOf front) :=
    (inPlace_cons.1 (inPlace_append.1 hinPlace).2).1
  have hsize : d.size = sizeAll (instructionsOf front) + 1 := by
    rw [Draft.size, hpieces, instructionsOf_append, Instruction.sizeAll_append]
    rfl
  exact ⟨front, offset', hpieces, hlast, by omega, by omega⟩

/-- A jump that waits stays if the last piece goes that discards a value. -/
theorem waiting_front (h : f.Drafted j d labels) {front : List Piece} {offset : Nat}
    (hpieces : d.pieces = front ++ [⟨offset, .plain .pop⟩]) :
    ∀ l ∈ j.waiting, ∃ p ∈ front, ∃ conditional n, p.part = .forward conditional n none ∧
      l = Code.labelAt p.offset := by
  intro l hl
  obtain ⟨p, hp, conditional, n, hpart, heq⟩ := h.waiting l hl
  rw [hpieces] at hp
  rcases List.mem_append.1 hp with hp | hp
  · exact ⟨p, hp, conditional, n, hpart, heq⟩
  · cases List.mem_singleton.1 hp
    cases hpart

/-- **The last instruction is taken back**, if it discards a value. -/
theorem dropLast (h : f.Drafted j d labels) (hpop : f.lastIs .pop = true) :
    f.dropLast.Tracked j ∧ f.dropLast.lastIs .pop = false := by
  obtain ⟨front, offset, hpieces, hlast, hoffset, hsize⟩ := h.exists_pop hpop
  have heq : f.dropLast = { f with code := f.code.truncate offset, last := f.previous } := by
    rw [Fragment.dropLast, hlast]
  have hnot : f.dropLast.lastIs .pop = false := by
    rw [heq]
    exact lastIs_eq_false_iff.2 (h.apart hpop)
  have hprevious := h.previous hpop
  rw [hpieces, List.dropLast_concat] at hprevious
  refine ⟨⟨{ d with pieces := front }, labels,
    .of_not_pop ?_ ?_ hnot (h.waiting_front hpieces) h.nodup ?_⟩, hnot⟩
  · rw [heq]
    exact h.describes.dropLast hpieces
  · rw [heq]
    exact hprevious
  · intro t ht
    have hlt := (h.targets t ht).2 hpop
    show t ≤ sizeAll (instructionsOf front)
    omega

/-- **The last instruction becomes a return**, if it discards a value. -/
theorem replaceLast (h : f.Drafted j d labels) (hpop : f.lastIs .pop = true) :
    ∃ g, f.replaceLast? .returnValue = some g ∧ g.Tracked j ∧ g.lastIs .returnValue = true := by
  obtain ⟨front, offset, hpieces, hlast, hoffset, hsize⟩ := h.exists_pop hpop
  obtain ⟨code, hcode, hdescribes⟩ := h.describes.replaceLast (j := .returnValue) hpieces rfl rfl
  refine ⟨{ f with code, last := some ⟨.returnValue, offset⟩ }, ?_,
    ⟨{ d with pieces := front ++ [⟨offset, .plain .returnValue⟩] }, labels,
      .of_not_pop hdescribes ?_ rfl ?_ h.nodup ?_⟩, rfl⟩
  · rw [replaceLast?, hlast]
    exact Option.map_eq_some_iff.2 ⟨code, hcode, rfl⟩
  · exact (lastEmitted_concat front ⟨offset, .plain .returnValue⟩).symm
  · intro l hl
    obtain ⟨p, hp, hwaits⟩ := h.waiting_front hpieces l hl
    exact ⟨p, List.mem_append_left _ hp, hwaits⟩
  · intro t ht
    have hlt := (h.targets t ht).2 hpop
    show t ≤ sizeAll (instructionsOf (front ++ [_]))
    rw [instructionsOf_append, Instruction.sizeAll_append]
    omega

/-- **A waiting jump gets its target**, unless the code is too long. -/
theorem bind (h : f.Drafted j d labels) {l : Label} (hl : l ∈ j.waiting)
    (hpop : f.lastIs .pop = false) (hsize : f.code.size ≤ Code.maxTarget) :
    ∃ code, f.code.bind l = .ok code ∧ code.size = f.code.size ∧
      Tracked { f with code } ⟨j.waiting.erase l, f.code.size :: j.targets⟩ := by
  obtain ⟨p, hp, conditional, n, hpart, rfl⟩ := h.waiting l hl
  have hlabel : p.part.label? = some n := by
    rw [hpart]
    rfl
  have hawaits : (d.pieces.any fun p => p.part.awaits n) = true :=
    List.any_eq_true.2 ⟨p, hp, by rw [hpart]; exact beq_self_eq_true n⟩
  obtain ⟨l, code, hl', hcode, hdescribes⟩ := h.describes.settle hawaits (h.size_eq ▸ hsize)
  obtain rfl : Code.labelAt p.offset = l :=
    Option.some.inj ((h.describes.label p hp n hlabel).symm.trans hl')
  have hsame : Draft.size { d with pieces := settleAll n d.size d.pieces } = d.size :=
    sizeAll_settleAll
  refine ⟨code, hcode, (hdescribes.size_eq.trans hsame).trans h.size_eq.symm,
    { d with pieces := settleAll n d.size d.pieces }, labels, ?_⟩
  refine .of_not_pop hdescribes (h.last.trans lastEmitted_settleAll.symm) hpop ?_
    (h.nodup.erase _) ?_
  · intro l hmem
    obtain ⟨hne, hmem⟩ := h.nodup.mem_erase_iff.1 hmem
    obtain ⟨q, hq, conditional', n', hpart', rfl⟩ := h.waiting l hmem
    -- Another label is that of another jump.
    have hother : q.part.label? ≠ some n := fun hn =>
      hne (Option.some.inj ((h.describes.label q hq n hn).symm.trans
        (h.describes.label p hp n hlabel)))
    refine ⟨_, List.mem_map.2 ⟨q, hq, rfl⟩, conditional', n', ?_, rfl⟩
    rw [Part.settle_of_ne hother]
    exact hpart'
  · intro t ht
    rw [hsame]
    rcases List.mem_cons.1 ht with rfl | ht
    · exact Nat.le_of_eq h.size_eq
    · exact (h.targets t ht).1

end Drafted

variable {f : Fragment} {j : Jumps}

/-- Nothing is known of no code, and this is true. -/
theorem tracked_empty : Tracked empty .none :=
  ⟨⟨[], 0⟩, [], .of_not_pop .empty rfl rfl (List.forall_mem_nil _) List.nodup_nil
    (List.forall_mem_nil _)⟩

/-- **An instruction is appended.** -/
theorem Tracked.emit (h : f.Tracked j) (i : Instruction)
    (hpop : i.op = .pop → f.lastIs .pop = false) :
    (f.emit i).Tracked j := by
  obtain ⟨d, labels, h⟩ := h
  have hdescribes :
      Draft.Describes ⟨d.add (.plain i), d.labels⟩ ⟨(f.emit i).code, labels ++ []⟩ := by
    rw [List.append_nil]
    exact h.describes.addPlain i
  exact ⟨_, _, @Drafted.add _ _ _ _ h _ _ [] hdescribes rfl rfl hpop List.nodup_nil
    (List.forall_mem_nil _)⟩

/-- **A jump is appended that waits for its target.** -/
theorem Tracked.jump (h : f.Tracked j) (conditional : Bool) :
    Tracked ⟨f.code.emit (.forward conditional (UInt16.ofNat Code.maxTarget)),
        some ⟨(Instruction.forward conditional 0).op, f.code.size⟩, f.last⟩
      ⟨Code.labelAt f.code.size :: j.waiting, j.targets⟩ := by
  obtain ⟨d, labels, h⟩ := h
  have hdescribes := h.describes.add (.forward conditional d.labels none) [Code.labelAt f.code.size]
    (fun l hl => ⟨(Option.some.inj hl).symm, rfl⟩) nofun
  refine ⟨_, _, @Drafted.add _ _ _ _ h _ _ [_] hdescribes ?_ rfl ?_ (by simp) ?_⟩
  · cases conditional <;> rfl
  · cases conditional <;> nofun
  · intro l hl
    exact ⟨List.mem_singleton.1 hl, conditional, d.labels, rfl⟩

/-! ## What is known -/

/-- **What is known of the last instruction is true.** Nothing is known of code
that is empty. -/
structure KnowsLast (f : Fragment) : Prop where
  /-- The code can be read back. -/
  readable : f.code.decode.error = none
  /-- The last instruction that is read has the opcode and the offset. -/
  last : f.last = f.code.decode.instructions.back?.map fun entry => ⟨entry.2.op, entry.1⟩

/-- **The last instruction is one byte, which may go.** It discards a value, and
nothing that comes before it is touched if it is taken back or overwritten:
neither the bytes for the target of a jump that waits for it, nor a target that
a jump has been given. -/
structure EndsInPop (f : Fragment) (j : Jumps) (front : List UInt8) : Prop where
  /-- It is the last byte. -/
  code : f.code.toList = front ++ [Op.pop.toByte]
  /-- It is the instruction that is known. -/
  last : f.last = some ⟨.pop, front.length⟩
  /-- It is the instruction that is read last. -/
  decoded : f.code.decode.instructions.back? = some (front.length, .pop)
  /-- Taking it back removes this byte. -/
  dropped : f.dropLast.code.toList = front
  /-- Making it a return overwrites this byte. -/
  replaced : ∃ g, f.replaceLast? .returnValue = some g ∧
    g.code.toList = front ++ [Op.returnValue.toByte]
  /-- The operands of all waiting jumps come before it. -/
  operands : ∀ l ∈ j.waiting, l.operand + 2 ≤ front.length
  /-- No target comes after it. -/
  targets : ∀ t ∈ j.targets, t ≤ front.length

/-- What is read back of a fragment are the pieces of its draft, and there is no
error. -/
theorem Drafted.decode_eq {d : Draft} {labels : List Label} (h : f.Drafted j d labels) :
    f.code.decode = ⟨(d.pieces.map Piece.entry).toArray, f.code.size, none⟩ := by
  have hcode : f.code = (encodeAll (instructionsOf d.pieces)).toArray := h.describes.code
  rw [hcode, Code.decode_encodeAll, h.describes.inPlace, Code.size_encodeAll]

/-- **What a fragment remembers is what is read back last.** -/
theorem Tracked.knowsLast (h : f.Tracked j) : f.KnowsLast := by
  obtain ⟨d, labels, h⟩ := h
  constructor
  · rw [h.decode_eq]
  · rw [h.decode_eq, h.last, lastEmitted, List.back?_toArray, List.getLast?_map, Option.map_map]
    rfl

/-- **An instruction that discards a value may go.** It is a single byte, a jump
that waits has its bytes before it, and no jump has been given the end of the
code as its target. -/
theorem Tracked.endsInPop (h : f.Tracked j) (hpop : f.lastIs .pop = true) :
    ∃ front, f.EndsInPop j front := by
  obtain ⟨d, labels, h⟩ := h
  obtain ⟨front, offset, hpieces, hlast, hoffset, hsize⟩ := h.exists_pop hpop
  have hlength : (encodeAll (instructionsOf front)).length = offset := by
    rw [Instruction.length_encodeAll, hoffset]
  -- The discarding instruction is one byte, and what comes before it is the
  -- front.
  have hcode : f.code.toList = encodeAll (instructionsOf front) ++ [Op.pop.toByte] := by
    have hdraft : f.code = (encodeAll (instructionsOf d.pieces)).toArray := h.describes.code
    rw [hdraft, hpieces, instructionsOf_append, Instruction.encodeAll_append]
    rfl
  refine ⟨encodeAll (instructionsOf front), hcode, ?last, ?decoded, ?dropped, ?replaced, ?operands,
    ?targets⟩
  case last => rw [hlast, hlength]
  case decoded =>
    rw [h.decode_eq, hpieces, List.back?_toArray, List.getLast?_map, List.getLast?_concat, hlength]
    rfl
  case dropped =>
    rw [Fragment.dropLast, hlast]
    show (f.code.shrink offset).toList = _
    rw [Array.toList_shrink, hcode, ← hlength, List.take_left]
  case replaced =>
    have hlt : offset < f.code.size := by
      rw [h.size_eq]
      omega
    rw [replaceLast?, hlast]
    refine ⟨_, Option.map_eq_some_iff.2 ⟨_, if_pos hlt, rfl⟩, ?_⟩
    show (f.code.setIfInBounds offset Op.returnValue.toByte).toList = _
    rw [Array.toList_setIfInBounds, hcode, ← hlength, List.set_append_right _ _ (Nat.le_refl _),
      Nat.sub_self]
    rfl
  case operands =>
    intro l hl
    obtain ⟨p, hp, conditional, n, hpart, rfl⟩ := h.waiting_front hpieces l hl
    have hinPlace := h.describes.inPlace
    rw [hpieces] at hinPlace
    have hle := (inPlace_append.1 hinPlace).1.offset_add_size_le hp
    rw [hpart, Part.size_forward, Nat.zero_add] at hle
    rw [Instruction.length_encodeAll]
    exact hle
  case targets =>
    intro t ht
    have hlt := (h.targets t ht).2 hpop
    omega

end Fragment

end StackScript
