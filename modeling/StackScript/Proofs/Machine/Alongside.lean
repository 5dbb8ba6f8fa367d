import StackScript.Proofs.Machine.Lockstep

/-!
# A program run alongside itself

Where two machines run the same program of the top level, one of them at another
place or in the middle of other code, there is a pairing (`Relocation.pairing`),
and the two are in step from the beginning (`Pairing.inStep_load`) to the end
(`Pairing.InStep.finishes`).

The machine on the left need not have been loaded: it is enough that it is
between two statements, with nothing on its stack (`Machine.Idle`).
-/

namespace StackScript

open Instruction (encodeAll sizeAll Moved)

/-- **Some instructions of the top level are found elsewhere**, at an offset of
other code. -/
structure Relocation (code : Code) (is : List Instruction) where
  /-- The offset. -/
  shift : Nat
  /-- What stands there. -/
  moved : List Instruction
  /-- It stands there. -/
  placed : code.Placed shift moved
  /-- It is the same, moved. -/
  forall₂ : List.Forall₂ (Moved shift) is moved
  /-- Jumps land where an instruction begins. -/
  aimed : ∀ i ∈ is, ∀ t, i.target? = some t → ∃ front back, is = front ++ back ∧
    t.toNat = sizeAll front ∧ back ≠ []

/-- What stands in the middle of a list is related to what stands in the middle
of the other. -/
theorem forall₂_append_cons {α β : Type} {R : α → β → Prop} {front rest : List α} {x : α}
    {ys : List β} (h : List.Forall₂ R (front ++ x :: rest) ys) :
    ∃ front' y rest', ys = front' ++ y :: rest' ∧ List.Forall₂ R front front' ∧ R x y := by
  induction front generalizing ys with
  | nil =>
    cases h with
    | @cons _ y _ ys hxy _ => exact ⟨[], y, ys, rfl, .nil, hxy⟩
  | cons z front ih =>
    cases h with
    | @cons _ y _ ys hzy hrest =>
      obtain ⟨front', y', rest', rfl, hfront, hxy⟩ := ih hrest
      exact ⟨y :: front', y', rest', rfl, .cons hzy hfront, hxy⟩

namespace Relocation

variable {code : Code} {is : List Instruction} {ip : Nat} {i : Instruction}

/-- An offset where an instruction begins, or where all end. -/
def Begins (is : List Instruction) (ip : Nat) : Prop :=
  ∃ front back, is = front ++ back ∧ ip = sizeAll front

/-- The offset past a last instruction that discards a value. -/
def Discarded (is : List Instruction) (ip : Nat) : Prop :=
  ip = sizeAll is ∧ is.getLast? = some .pop

/-- Some instructions take some bytes. -/
theorem sizeAll_pos {is : List Instruction} (h : is ≠ []) : 0 < sizeAll is := by
  cases is with
  | nil => exact (h rfl).elim
  | cons i is => exact Nat.add_pos_left i.size_pos _

theorem begins_zero (is : List Instruction) : Begins is 0 := ⟨[], is, rfl, rfl⟩

/-- Nothing has been discarded before the first instruction. -/
theorem not_discarded_zero (is : List Instruction) : ¬Discarded is 0 := by
  rintro ⟨hzero, hlast⟩
  have hne : is ≠ [] := by
    rintro rfl
    cases hlast
  exact Nat.ne_of_lt (sizeAll_pos hne) hzero

/-- What is read where an instruction begins is one of the instructions. -/
theorem Begins.decode (h : Begins is ip)
    (hi : Code.decodeAt (encodeAll is).toArray ip = some (.ok i)) :
    ∃ front rest, is = front ++ i :: rest ∧ ip = sizeAll front := by
  obtain ⟨front, back, rfl, rfl⟩ := h
  obtain ⟨rest, rfl⟩ := Instruction.eq_cons_of_decodeAt hi
  exact ⟨front, rest, rfl, rfl⟩

/-- Where an instruction stands in the program, the same one stands elsewhere,
moved by the shift. -/
theorem decode (r : Relocation code is) (h : Begins is ip)
    (hi : Code.decodeAt (encodeAll is).toArray ip = some (.ok i)) :
    ∃ j, code.decodeAt (ip + r.shift) = some (.ok j) ∧ Moved r.shift i j := by
  obtain ⟨front, rest, rfl, rfl⟩ := h.decode hi
  obtain ⟨front', j, rest', heq, hfront, hij⟩ := forall₂_append_cons r.forall₂
  have hplaced := r.placed
  rw [heq] at hplaced
  refine ⟨j, ?_, hij⟩
  rw [Nat.add_comm, ← Instruction.sizeAll_of_moved hfront]
  exact hplaced.right.decodeAt

/-- After an instruction another one begins, or the program ends. If it ends
with a value discarded, then the instruction was the one to do so. -/
theorem next (h : Begins is ip) (hi : Code.decodeAt (encodeAll is).toArray ip = some (.ok i)) :
    Begins is (ip + i.size) ∧ (Discarded is (ip + i.size) → i = .pop) := by
  obtain ⟨front, rest, rfl, rfl⟩ := h.decode hi
  refine ⟨⟨front ++ [i], rest, by rw [List.append_assoc]; rfl, ?_⟩, ?_⟩
  · rw [Instruction.sizeAll_append]
    rfl
  · rintro ⟨hsize, hlast⟩
    have hrest : rest = [] := by
      by_contra hne
      have hpos := sizeAll_pos hne
      rw [Instruction.sizeAll_append, Instruction.sizeAll_cons] at hsize
      omega
    rw [hrest, List.getLast?_append, List.getLast?_singleton] at hlast
    exact Option.some.inj hlast

/-- **A jump leads to where an instruction begins**, and not behind a value that
was discarded last. So the other code, where the value may be kept, can be
followed there. -/
theorem target (r : Relocation code is) {t : UInt16} (h : Begins is ip)
    (hi : Code.decodeAt (encodeAll is).toArray ip = some (.ok i)) (ht : i.target? = some t) :
    Begins is t.toNat ∧ ¬Discarded is t.toNat := by
  obtain ⟨front, rest, heq, -⟩ := h.decode hi
  have hmem : i ∈ is := heq ▸ List.mem_append_right _ List.mem_cons_self
  obtain ⟨front', back, heq', ht', hback⟩ := r.aimed i hmem t ht
  refine ⟨⟨front', back, heq', ht'⟩, fun ⟨hend, _⟩ => ?_⟩
  have hpos := sizeAll_pos hback
  rw [ht', heq', Instruction.sizeAll_append] at hend
  omega

/-- **The pairing of a program with itself elsewhere.** -/
def pairing (r : Relocation code is) (ρ : Renaming) {pool pool' : Array Value}
    (hfirst : pool'.toList <+: pool.toList) (hconstant : ∀ v ∈ pool.toList, v.isConstant = true)
    (before : String) : Pairing where
  toRenaming := ρ
  pool := pool
  pool' := pool'
  first := hfirst
  constant := hconstant
  before := before
  code := code
  code' := (encodeAll is).toArray
  shift := r.shift
  Begins := Begins is
  Discarded := Discarded is
  decode := r.decode
  next := next
  target := r.target

end Relocation

namespace Pairing

variable {p : Pairing} {m m' y' : Machine}

/-- Only null is renamed to null. -/
theorem eq_of_forall₂_null {n k : Nat} {xs : List Value}
    (h : List.Forall₂ (p.Same n) xs (List.replicate k .null)) : xs = List.replicate k .null := by
  induction k generalizing xs with
  | zero => exact List.forall₂_nil_right_iff.1 h
  | succ k ih =>
    cases h with
    | cons hx hxs =>
      cases hx
      rw [ih hxs]
      rfl

/-- **A machine between two statements is in step** with one that has just been
loaded with the code of the second. -/
theorem inStep_load {globals : Globals} {identity : Nat} (hm : m.Idle p.code p.shift)
    (hbegins : p.Begins 0) (hdiscarded : ¬p.Discarded 0) (hconstants : m.constants = p.pool)
    (hglobals : List.Forall₂ (p.Same m.nextIdentity) m.globals.slots.toList globals.slots.toList)
    (hidentity : p.rename m.nextIdentity = identity + 1) (hsince : p.since ≤ m.nextIdentity)
    (houtput : m.output = p.before) (hbudget : m.budget = none) (journal : Journal) :
    p.InStep m (Machine.load ⟨p.code', p.pool'⟩ globals none identity journal) := by
  obtain ⟨closure, hframes, hcode, hlocals, hcaptured⟩ := hm.frames
  refine ⟨m.nextIdentity, False, ?_⟩
  exact
    { constants := hconstants
      constants' := rfl
      stack := by
        rw [hm.stack]
        exact List.forall₂_same.2 fun v hv => List.eq_of_mem_replicate hv ▸ .null
      sp := hm.sp
      frames := by
        rw [hframes]
        refine .top ⟨hcode, rfl, ⟨rfl, hlocals, ?_⟩, (Nat.zero_add _).symm, hbegins, hdiscarded⟩
        rw [hcaptured]
        exact .nil
      globals := hglobals
      popped := False.elim
      budget := hbudget
      budget' := rfl
      identity := rfl
      identity' := hidentity.symm
      since := hsince
      output := by
        rw [houtput]
        exact (String.append_empty).symm }

/-- A machine in step with one between two statements is between two
statements. -/
theorem InStep.idle {ip : Nat} (h : p.InStep m m') (hm' : m'.Idle p.code' ip) :
    m.Idle p.code (ip + p.shift) := by
  obtain ⟨n, V, hlock⟩ := h
  obtain ⟨closure', hframes', -, hlocals', hcaptured'⟩ := hm'.frames
  have hframes := hlock.frames
  rw [hframes'] at hframes
  obtain ⟨⟨closure, ip', base⟩, hm, htop⟩ := hframes.sameTop
  have hbase : base = 0 := htop.alike.base
  have hip : ip' = ip + p.shift := htop.ip
  have hcaptured := htop.alike.captured
  rw [hcaptured'] at hcaptured
  refine ⟨?_, hlock.sp.trans hm'.sp, closure, ?_, htop.code, htop.alike.locals.trans hlocals',
    List.forall₂_nil_right_iff.1 hcaptured⟩
  · have hstack := hlock.stack
    rw [hm'.stack] at hstack
    exact Array.ext' (eq_of_forall₂_null hstack)
  · rw [hm, hbase, hip]

/-- Machines in step have in common what both of them look at. -/
theorem InStep.shared (h : p.InStep m m') : p.Shared m m' := by
  obtain ⟨n, V, hlock⟩ := h
  exact hlock.shared

/-- Where a value has just been discarded, it is the same on both sides. -/
theorem InStep.popped {ip : Nat} (h : p.InStep m m') (hm' : m'.Idle p.code' ip)
    (hdiscarded : p.Discarded ip) : p.Same m.nextIdentity m.lastPopped m'.lastPopped := by
  obtain ⟨n, V, hlock⟩ := h
  obtain ⟨closure', hframes', -⟩ := hm'.frames
  have hframes := hlock.frames
  rw [hframes'] at hframes
  obtain ⟨f, -, htop⟩ := hframes.sameTop
  rw [hlock.identity]
  exact hlock.popped (htop.place.2 hdiscarded)

/-- A run on the right that comes to the end of its code leads on the left to
where it ends. -/
theorem InStep.ends (h : p.InStep m m') (hm' : Finishes m' (.ok ()) y') :
    ∃ k y, Path k m y ∧ p.InStep y y' := by
  cases hm' with
  | @ends k _ hpath _ =>
    obtain ⟨y, hpath', hy⟩ := h.path hpath
    exact ⟨k, y, hpath', hy⟩

/-- A run on the right that halts is halted on the left by the same error,
unless a constant is lacking. -/
theorem InStep.halts {e : RuntimeError} (h : p.InStep m m')
    (hm' : Finishes m' (.error (.error e)) y') (he : e.ofBadCode = false) :
    ∃ y, Finishes m (.error (.error e)) y ∧ p.Shared y y' := by
  cases hm' with
  | halts hpath hpoised hstep =>
    obtain ⟨x, hpath', hx⟩ := h.path hpath
    obtain ⟨hpoised', hpaired⟩ := hx.step hpoised
    rw [hstep] at hpaired
    generalize hstep' : Exec.step x = result at hpaired
    cases hpaired with
    | @halt _ y _ hshared => exact ⟨y, .halts hpath' hpoised' hstep', hshared⟩
    | lacking => cases he

/-- **Runs that end well side by side come to the same**, where the code on the
left ends together with the code on the right. -/
theorem InStep.finishes {outcome : Except Halt Unit} (h : p.InStep m m')
    (hm' : Finishes m' outcome y') (hwell : y'.EndsWell p.code' outcome)
    (hend : p.code.decodeAt (p.code'.size + p.shift) = none) :
    ∃ y, Finishes m outcome y ∧ p.Shared y y' ∧
      (outcome = .ok () → p.Discarded p.code'.size →
        p.Same y.nextIdentity y.lastPopped y'.lastPopped) := by
  match outcome, hwell with
  | .ok (), hidle =>
    obtain ⟨k, y, hpath, hy⟩ := h.ends hm'
    exact ⟨y, .ends hpath ((hy.idle hidle).step hend), hy.shared, fun _ => hy.popped hidle⟩
  | .error (.error e), he =>
    obtain ⟨y, hfinishes, hshared⟩ := h.halts hm' he
    exact ⟨y, hfinishes, hshared, nofun⟩

end Pairing

end StackScript
