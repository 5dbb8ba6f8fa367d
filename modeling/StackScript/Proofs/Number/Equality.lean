import Mathlib.Algebra.Order.Field.Power
import Mathlib.Data.Nat.Bitwise
import Mathlib.Data.Rat.Cast.Order
import Mathlib.Tactic.Ring
import StackScript.Number.Basic

/-!
# Equality of numbers

Numbers are kept as bit patterns, and `Number.equal` compares the patterns,
after turning the negative zero into the positive one. This module says what the
patterns stand for (`Number.meaning`): an infinity, a rational number
`± m · 2 ^ q`, or no number at all; and it shows that two numbers are equal
exactly when both stand for a number and for the same one (`Number.equal_iff`).

The point is that a number other than zero has one pattern only. As natural
numbers, the patterns without the sign are in the order of the numbers they
stand for: all finite numbers are multiples of `2 ^ (-1074)`, and how many
(`Number.unitsOf`) grows with the pattern, also from one exponent to the next.
-/

namespace StackScript

namespace Number

/-- **What a number stands for.** -/
inductive Meaning where
  /-- No number. -/
  | nan
  /-- One of the two infinities. -/
  | infinite (negative : Bool)
  /-- A rational number. -/
  | finite (value : ℚ)
deriving DecidableEq

/-- **What the bits of a number stand for** in the format binary64. -/
def meaning (n : Number) : Meaning :=
  if n.isNaN then .nan
  else if n.isFinite then
    .finite ((if n.isNegative then -1 else 1) * (n.significand * (2 : ℚ) ^ n.exponent))
  else .infinite n.isNegative

/-! ## Sign and magnitude -/

/-- The magnitude is all bits but the sign. -/
theorem toNat_magnitude (n : Number) : n.magnitude.toNat = n.bits.toNat % 2 ^ 63 := by
  rw [magnitude, UInt64.toNat_and]
  exact Nat.and_two_pow_sub_one_eq_mod _ 63

/-- The sign is the highest bit. -/
theorem isNegative_iff (n : Number) : n.isNegative = true ↔ 2 ^ 63 ≤ n.bits.toNat := by
  have hbits : n.bits.toNat < 2 ^ 64 := n.bits.toNat_lt
  have hand : (n.bits &&& signBit).toNat = (n.bits.toNat.testBit 63).toNat * 2 ^ 63 := by
    rw [UInt64.toNat_and]
    exact Nat.and_two_pow _ 63
  rw [isNegative, bne_iff_ne, ne_eq, ← UInt64.toNat_inj, hand, Nat.testBit_eq_decide_div_mod_eq]
  by_cases hlarge : n.bits.toNat / 2 ^ 63 % 2 = 1
  · rw [decide_eq_true hlarge]
    exact iff_of_true (by decide) (by omega)
  · rw [decide_eq_false hlarge]
    exact iff_of_false (by decide) (by omega)

/-- A number is its sign and its magnitude. -/
theorem eq_of_magnitude {a b : Number} (hmagnitude : a.magnitude.toNat = b.magnitude.toNat)
    (hsign : a.isNegative = b.isNegative) : a = b := by
  have hsign' : 2 ^ 63 ≤ a.bits.toNat ↔ 2 ^ 63 ≤ b.bits.toNat := by
    rw [← isNegative_iff, ← isNegative_iff, hsign]
  rw [toNat_magnitude, toNat_magnitude] at hmagnitude
  have ha : a.bits.toNat < 2 ^ 64 := a.bits.toNat_lt
  have hb : b.bits.toNat < 2 ^ 64 := b.bits.toNat_lt
  have hbits : a.bits = b.bits := UInt64.toNat_inj.1 (by omega)
  cases a
  cases b
  exact congrArg mk hbits

/-- Without a magnitude a number is one of the two zeros, which are one number
after all. -/
theorem canonical_eq_zero_iff {n : Number} : n.canonical = zero ↔ n.magnitude.toNat = 0 := by
  have hbits : n.bits.toNat < 2 ^ 64 := n.bits.toNat_lt
  have hnat : ∀ bits : UInt64, n.bits = bits ↔ n.bits.toNat = bits.toNat :=
    fun _ => UInt64.toNat_inj.symm
  have hzero : n = zero ↔ n.bits = 0 := by
    cases n
    exact mk.injEq _ _ ▸ Iff.rfl
  rw [canonical, toNat_magnitude]
  split
  · next hnegative =>
    rw [hnegative]
    exact iff_of_true rfl rfl
  · next hnegative =>
    rw [hnat] at hnegative
    rw [hzero, hnat]
    simp only [signBit, UInt64.reduceToNat] at hnegative ⊢
    omega

/-- Only a zero is changed by making it canonical. -/
theorem canonical_of_ne_zero {n : Number} (h : n.magnitude.toNat ≠ 0) : n.canonical = n := by
  rw [canonical, if_neg]
  intro hnegative
  rw [toNat_magnitude, hnegative] at h
  exact h rfl

/-- A magnitude above that of an infinity stands for no number. -/
theorem isNaN_iff (n : Number) : n.isNaN = true ↔ 2047 * 2 ^ 52 < n.magnitude.toNat := by
  rw [isNaN, decide_eq_true_iff, UInt64.lt_iff_toNat_lt]
  exact Iff.rfl

/-- One below it stands for a finite number. -/
theorem isFinite_iff (n : Number) : n.isFinite = true ↔ n.magnitude.toNat < 2047 * 2 ^ 52 := by
  rw [isFinite, decide_eq_true_iff, UInt64.lt_iff_toNat_lt]
  exact Iff.rfl

/-! ## Finite numbers -/

/-- **How many times `2 ^ (-1074)` a finite number is**, given the bits of its
magnitude. -/
def unitsOf (magnitude : Nat) : Nat :=
  if magnitude / 2 ^ 52 = 0 then magnitude % 2 ^ 52
  else (magnitude % 2 ^ 52 + 2 ^ 52) * 2 ^ (magnitude / 2 ^ 52 - 1)

/-- The finite numbers with an exponent are less than those with the next
one. -/
theorem unitsOf_lt_next (m : Nat) : unitsOf m < 2 ^ 52 * 2 ^ (m / 2 ^ 52) := by
  have hfraction : m % 2 ^ 52 < 2 ^ 52 := Nat.mod_lt _ (by decide)
  rw [unitsOf]
  split
  · next hzero =>
    rw [hzero, Nat.pow_zero, Nat.mul_one]
    exact hfraction
  · next hpos =>
    obtain ⟨e, he⟩ := Nat.exists_eq_succ_of_ne_zero hpos
    have hpow : 2 ^ e.succ = 2 * 2 ^ e := Nat.pow_succ'
    rw [he, Nat.succ_sub_one, hpow, ← Nat.mul_assoc]
    exact Nat.mul_lt_mul_of_pos_right (by omega) (Nat.two_pow_pos e)

/-- They are not less than the first number with this exponent. With the last
lemma, exponents can be told apart by size. -/
theorem le_unitsOf {m e : Nat} (h : m / 2 ^ 52 = e + 1) : 2 ^ 52 * 2 ^ e ≤ unitsOf m := by
  rw [unitsOf, h, if_neg (Nat.succ_ne_zero e), Nat.succ_sub_one]
  exact Nat.mul_le_mul_right _ (Nat.le_add_left _ _)

/-- **Greater magnitudes stand for greater numbers.** -/
theorem unitsOf_lt {m m' : Nat} (h : m < m') : unitsOf m < unitsOf m' := by
  rcases Nat.lt_or_ge (m / 2 ^ 52) (m' / 2 ^ 52) with hlt | hge
  · -- The exponent is greater: a power of two lies between the numbers.
    obtain ⟨e, he⟩ : ∃ e, m' / 2 ^ 52 = e + 1 := ⟨m' / 2 ^ 52 - 1, by omega⟩
    calc unitsOf m < 2 ^ 52 * 2 ^ (m / 2 ^ 52) := unitsOf_lt_next m
      _ ≤ 2 ^ 52 * 2 ^ e := Nat.mul_le_mul_left _ (Nat.pow_le_pow_right (by decide) (by omega))
      _ ≤ unitsOf m' := le_unitsOf he
  · have hexponent : m' / 2 ^ 52 = m / 2 ^ 52 :=
      Nat.le_antisymm hge (Nat.div_le_div_right (Nat.le_of_lt h))
    have hfraction : m % 2 ^ 52 < m' % 2 ^ 52 := by omega
    rw [unitsOf, unitsOf, hexponent]
    split
    · exact hfraction
    · exact Nat.mul_lt_mul_of_pos_right (by omega) (Nat.two_pow_pos _)

/-- **Two magnitudes that are equally many units are the same.** The exponents
are equal by the two lemmas before, and then so are the fractions. -/
theorem unitsOf_inj {m m' : Nat} (h : unitsOf m = unitsOf m') : m = m' := by
  rcases Nat.lt_trichotomy m m' with hlt | heq | hgt
  · exact absurd h (Nat.ne_of_lt (unitsOf_lt hlt))
  · exact heq
  · exact absurd h.symm (Nat.ne_of_lt (unitsOf_lt hgt))

/-- The bits of a finite number, as a multiple of `2 ^ (-1074)`. -/
theorem significand_mul_pow (n : Number) :
    n.significand * (2 : ℚ) ^ n.exponent = unitsOf n.magnitude.toNat * (2 : ℚ) ^ (-1074 : ℤ) := by
  have hexponent : n.biasedExponent = n.magnitude.toNat / 2 ^ 52 := by
    rw [biasedExponent, UInt64.toNat_shiftRight, Nat.shiftRight_eq_div_pow]
    rfl
  have hfraction : n.fraction = n.magnitude.toNat % 2 ^ 52 := by
    have hmask : n.fraction = n.bits.toNat % 2 ^ 52 := by
      rw [fraction, UInt64.toNat_and]
      exact Nat.and_two_pow_sub_one_eq_mod _ 52
    rw [hmask, toNat_magnitude]
    omega
  rw [significand, exponent, unitsOf, hexponent, hfraction]
  generalize n.magnitude.toNat / 2 ^ 52 = e
  generalize n.magnitude.toNat % 2 ^ 52 = f
  by_cases he : e = 0
  · rw [if_pos he, if_pos he, if_pos he]
  · obtain ⟨e, rfl⟩ := Nat.exists_eq_succ_of_ne_zero he
    have hpow : (2 : ℚ) ^ ((e.succ : ℤ) - 1075) = 2 ^ e * 2 ^ (-1074 : ℤ) := by
      rw [← zpow_natCast, ← zpow_add₀ (by norm_num)]
      congr 1
      push_cast
      ring
    rw [if_neg he, if_neg he, if_neg he, hpow, Nat.succ_sub_one, Nat.shiftLeft_eq, Nat.one_mul]
    generalize (2 : ℚ) ^ (-1074 : ℤ) = unit
    push_cast
    ring

/-! ## What numbers stand for -/

theorem meaning_eq_nan_iff {n : Number} : n.meaning = .nan ↔ n.isNaN = true := by
  unfold meaning
  split
  · next h => exact iff_of_true rfl h
  · next h =>
    refine iff_of_false ?_ h
    split <;> exact Meaning.noConfusion

/-- A finite number is its sign times so many units. This is the form in which
finite numbers are compared. -/
theorem meaning_of_isFinite {n : Number} (h : n.isFinite = true) : n.meaning =
    .finite
      ((if n.isNegative then -1 else 1) * (unitsOf n.magnitude.toNat * (2 : ℚ) ^ (-1074 : ℤ))) := by
  have hnan : ¬n.isNaN = true := by
    rw [isFinite_iff] at h
    rw [isNaN_iff]
    omega
  rw [meaning, if_neg hnan, if_pos h, significand_mul_pow]

/-- What is neither finite nor a NaN is an infinity, and there is only one
magnitude for it. -/
theorem meaning_of_infinite {n : Number} (hnan : ¬n.isNaN = true) (h : ¬n.isFinite = true) :
    n.meaning = .infinite n.isNegative ∧ n.magnitude.toNat = 2047 * 2 ^ 52 := by
  refine ⟨by rw [meaning, if_neg hnan, if_neg h], ?_⟩
  rw [isNaN_iff] at hnan
  rw [isFinite_iff] at h
  omega

/-- A multiple of a positive unit, with a sign, has one multiplier, and one sign
unless it is zero. -/
theorem eq_of_signed_eq {m m' : Nat} {negative negative' : Bool} {unit : ℚ} (hunit : 0 < unit)
    (h : (if negative then -1 else 1) * (m * unit) = (if negative' then -1 else 1) * (m' * unit)) :
    m = m' ∧ (m ≠ 0 → negative = negative') := by
  have hsame : m * unit = m' * unit → m = m' := fun heq =>
    Nat.cast_injective (mul_right_cancel₀ (ne_of_gt hunit) heq)
  have hm : 0 ≤ m * unit := mul_nonneg (Nat.cast_nonneg m) (le_of_lt hunit)
  have hm' : 0 ≤ m' * unit := mul_nonneg (Nat.cast_nonneg m') (le_of_lt hunit)
  -- With different signs both products are zero.
  have hopposite : m * unit = -(m' * unit) → m = 0 ∧ m' = 0 := by
    intro heq
    have hzero : m * unit = 0 := le_antisymm (heq ▸ neg_nonpos.2 hm') hm
    have hzero' : m' * unit = 0 := by rw [← neg_eq_zero, ← heq, hzero]
    constructor
    · exact Nat.cast_eq_zero.1 ((mul_eq_zero.1 hzero).resolve_right (ne_of_gt hunit))
    · exact Nat.cast_eq_zero.1 ((mul_eq_zero.1 hzero').resolve_right (ne_of_gt hunit))
  cases negative <;> cases negative' <;>
    simp only [if_true, if_false, Bool.false_eq_true, one_mul, neg_one_mul] at h
  · exact ⟨hsame h, fun _ => rfl⟩
  · obtain ⟨rfl, rfl⟩ := hopposite h
    exact ⟨rfl, fun hne => (hne rfl).elim⟩
  · obtain ⟨rfl, rfl⟩ := hopposite (neg_eq_iff_eq_neg.1 h)
    exact ⟨rfl, fun hne => (hne rfl).elim⟩
  · exact ⟨hsame (neg_injective h), fun _ => rfl⟩

/-- Numbers with one representative stand for the same number. -/
theorem meaning_of_canonical {a b : Number} (h : a.canonical = b.canonical) :
    a.meaning = b.meaning := by
  have hzero : a.magnitude.toNat = 0 ↔ b.magnitude.toNat = 0 := by
    rw [← canonical_eq_zero_iff, ← canonical_eq_zero_iff, h]
  have hfinite : ∀ {n : Number}, n.magnitude.toNat = 0 → n.meaning = .finite 0 := by
    intro n hn
    have hn' : n.isFinite = true := by
      rw [isFinite_iff, hn]
      decide
    have hunits : unitsOf 0 = 0 := rfl
    rw [meaning_of_isFinite hn', hn, hunits, Nat.cast_zero, zero_mul, mul_zero]
  by_cases ha : a.magnitude.toNat = 0
  · rw [hfinite ha, hfinite (hzero.1 ha)]
  · rw [canonical_of_ne_zero ha, canonical_of_ne_zero (mt hzero.2 ha)] at h
    rw [h]

/-- Numbers that stand for the same number have one representative. -/
theorem canonical_of_meaning {a b : Number} (hnan : ¬a.isNaN = true) (h : a.meaning = b.meaning) :
    a.canonical = b.canonical := by
  have hnan' : ¬b.isNaN = true := by rwa [← meaning_eq_nan_iff, ← h, meaning_eq_nan_iff]
  by_cases ha : a.isFinite = true
  · by_cases hb : b.isFinite = true
    · rw [meaning_of_isFinite ha, meaning_of_isFinite hb] at h
      have hunit : (0 : ℚ) < 2 ^ (-1074 : ℤ) := zpow_pos (by norm_num) _
      obtain ⟨hunits, hsign⟩ := eq_of_signed_eq hunit (Meaning.finite.inj h)
      have hmagnitude := unitsOf_inj hunits
      by_cases hzero : a.magnitude.toNat = 0
      · rw [canonical_eq_zero_iff.2 hzero, canonical_eq_zero_iff.2 (hmagnitude ▸ hzero)]
      · have hpos : unitsOf a.magnitude.toNat ≠ 0 := fun heq => hzero (unitsOf_inj heq)
        rw [eq_of_magnitude hmagnitude (hsign hpos)]
    · rw [meaning_of_isFinite ha, (meaning_of_infinite hnan' hb).1] at h
      cases h
  · obtain ⟨hmeaning, hmagnitude⟩ := meaning_of_infinite hnan ha
    by_cases hb : b.isFinite = true
    · rw [hmeaning, meaning_of_isFinite hb] at h
      cases h
    · obtain ⟨hmeaning', hmagnitude'⟩ := meaning_of_infinite hnan' hb
      rw [hmeaning, hmeaning'] at h
      rw [eq_of_magnitude (hmagnitude.trans hmagnitude'.symm) (Meaning.infinite.inj h)]

/-- **Two numbers are equal if and only if they stand for the same number.** -/
theorem equal_iff (a b : Number) : a.equal b = true ↔ a.meaning ≠ .nan ∧ a.meaning = b.meaning := by
  rw [equal, Bool.and_eq_true, Bool.not_eq_true', ← Bool.not_eq_true, beq_iff_eq, ne_eq,
    meaning_eq_nan_iff]
  exact and_congr_right fun hnan => ⟨meaning_of_canonical, canonical_of_meaning hnan⟩

end Number

end StackScript
