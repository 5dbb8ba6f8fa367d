/-!
# Columns of fixed width

Listings align numbers in columns: a text shorter than its column is filled on
the left, a longer one stands as it is.
-/

namespace StackScript

/-- **A text filled on the left** up to a width. -/
def column (width : Nat) (fill : Char) (text : String) : String :=
  String.ofList (List.replicate (width - text.length) fill) ++ text

/-- The lower-case hexadecimal digits of a number, filled with zeros up to a
width. -/
def hexadecimal (width : Nat) (n : Nat) : String :=
  column width '0' (String.ofList (Nat.toDigits 16 n))

end StackScript
