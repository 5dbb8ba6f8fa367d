import StackScript.Number.Shortest

/-!
# The text of numbers

Numbers are written **positionally**, whatever their size: the shortest digits
that read back, zeros up to the decimal point, and no point at all after a
whole number. A literal of the language is read the other way: digits, and
perhaps a point and more digits, to the nearest number.
-/

namespace StackScript

/-- A decimal in positional notation. -/
def Decimal.positional (d : Decimal) : String :=
  let digits := Nat.toDigits 10 d.digits
  let places := (-d.exponent).toNat
  if places = 0 then
    String.ofList (digits ++ List.replicate d.exponent.toNat '0')
  else
    let padded := List.replicate (places + 1 - digits.length) '0' ++ digits
    let whole := padded.length - places
    String.ofList (padded.take whole ++ '.' :: padded.drop whole)

namespace Number

/-- **The text of a number**: positional, with `inf` and `NaN` for what has no
digits. A NaN shows no sign; a zero does. -/
def text (n : Number) : String :=
  if n.isNaN then "NaN"
  else
    let sign := if n.isNegative then "-" else ""
    if !n.isFinite then sign ++ "inf"
    else if n.magnitude = 0 then sign ++ "0"
    else sign ++ n.shortest.positional

/-- The natural number that ASCII digits spell. -/
def natOfDigits (digits : List UInt8) : Nat :=
  digits.foldl (fun n digit => 10 * n + (digit.toNat - 0x30)) 0

/-- **The number nearest to a literal**, given the digits before the decimal
point and those after it. -/
def ofDigits (whole fraction : List UInt8) : Number :=
  ofFloat (Float.ofScientific (natOfDigits (whole ++ fraction)) true fraction.length)

end Number

end StackScript
