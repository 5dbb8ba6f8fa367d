/-!
# Numbers

The language has one kind of number, the binary64 number of IEEE 754. A
`Number` is kept as its **bit pattern**: two numbers are the same datum when
their 64 bits are, which is finer than the equality programs see. Programs see
`Number.equal`, where the two zeros are equal and a NaN equals nothing. Both
are decidable on the bits alone, so statements about equality need no law of
floating-point arithmetic.

Arithmetic and order are the machine's, through `Float`.
-/

namespace StackScript

/-- **A binary64 number**, kept as its bit pattern. -/
structure Number where
  /-- Sign, eleven bits of exponent and 52 bits of fraction. -/
  bits : UInt64
deriving DecidableEq, Inhabited

namespace Number

/-- The bit that holds the sign. -/
def signBit : UInt64 := 0x8000000000000000

/-- The exponent bits of an infinity or a NaN, all set. -/
def exponentMask : UInt64 := 0x7FF0000000000000

/-- The 52 bits of the fraction. -/
def fractionMask : UInt64 := 0x000FFFFFFFFFFFFF

/-- The number zero. -/
def zero : Number := ⟨0⟩

/-- The number a machine float holds. -/
def ofFloat (x : Float) : Number := ⟨x.toBits⟩

/-- The machine float with these bits. -/
def toFloat (n : Number) : Float := Float.ofBits n.bits

/-- The number nearest to a natural number. -/
def ofNat (n : Nat) : Number := ofFloat (Float.ofNat n)

/-- The number nearest to an integer. -/
def ofInt (n : Int) : Number := ofFloat (Float.ofInt n)

/-- Whether the sign bit is set. -/
def isNegative (n : Number) : Bool := n.bits &&& signBit != 0

/-- The bits without the sign. -/
def magnitude (n : Number) : UInt64 := n.bits &&& ~~~signBit

/-- Whether the number is neither infinite nor a NaN. -/
def isFinite (n : Number) : Bool := n.magnitude < exponentMask

/-- Whether the bits stand for no number. -/
def isNaN (n : Number) : Bool := exponentMask < n.magnitude

/-- **The representative of a number under equality**: the negative zero
becomes the positive one, every other number is its own. -/
def canonical (n : Number) : Number := if n.bits = signBit then zero else n

/-- **Equality as programs see it**: a NaN equals nothing, and the two zeros
are equal. -/
def equal (a b : Number) : Bool := !a.isNaN && a.canonical == b.canonical

/-- The sum, rounded to nearest. -/
def add (a b : Number) : Number := ofFloat (a.toFloat + b.toFloat)

/-- The difference, rounded to nearest. -/
def sub (a b : Number) : Number := ofFloat (a.toFloat - b.toFloat)

/-- The product, rounded to nearest. -/
def mul (a b : Number) : Number := ofFloat (a.toFloat * b.toFloat)

/-- The quotient, rounded to nearest. -/
def div (a b : Number) : Number := ofFloat (a.toFloat / b.toFloat)

/-- The number with its sign flipped. -/
def neg (n : Number) : Number := ⟨n.bits ^^^ signBit⟩

/-- Whether the first number is less than the second; never with a NaN. -/
def less (a b : Number) : Bool := a.toFloat < b.toFloat

/-! ## The parts of a finite number -/

/-- The biased exponent, from 0 to 2047. -/
def biasedExponent (n : Number) : Nat := (n.magnitude >>> 52).toNat

/-- The 52 bits of the fraction as a natural number. -/
def fraction (n : Number) : Nat := (n.bits &&& fractionMask).toNat

/-- The significand `m` of a finite number of magnitude `m · 2 ^ q`: normal
numbers have a leading one that the bits do not hold. -/
def significand (n : Number) : Nat :=
  if n.biasedExponent = 0 then n.fraction else n.fraction + 1 <<< 52

/-- The binary exponent `q` of a finite number of magnitude `m · 2 ^ q`. -/
def exponent (n : Number) : Int :=
  if n.biasedExponent = 0 then -1074 else (n.biasedExponent : Int) - 1075

/-- **The natural number that a number is**, if it is one. The negative zero
is zero; a fraction, a negative number, an infinity and a NaN are none. -/
def toNat? (n : Number) : Option Nat :=
  if n.magnitude = 0 then some 0
  else if n.isNegative || !n.isFinite then none
  else if 0 ≤ n.exponent then some (n.significand <<< n.exponent.toNat)
  else
    let unit := 1 <<< (-n.exponent).toNat
    if n.significand % unit = 0 then some (n.significand / unit) else none

end Number

end StackScript
