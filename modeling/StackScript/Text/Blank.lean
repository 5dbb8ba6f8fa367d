/-!
# Blank characters

The blanks around a line of input are the characters with the property
White_Space of Unicode.
-/

namespace StackScript

/-- **The blank characters.** -/
def isBlank (c : Char) : Bool :=
  let n := c.toNat
  (0x09 ≤ n && n ≤ 0x0D) || n == 0x20 || n == 0x85 || n == 0xA0 || n == 0x1680 ||
    (0x2000 ≤ n && n ≤ 0x200A) || n == 0x2028 || n == 0x2029 || n == 0x202F ||
    n == 0x205F || n == 0x3000

/-- A text without the blanks at its two ends. -/
def trimBlanks (s : String) : String :=
  let front := s.toList.dropWhile isBlank
  String.ofList (front.reverse.dropWhile isBlank).reverse

end StackScript
