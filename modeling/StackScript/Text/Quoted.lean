import StackScript.Text.Unprintable

/-!
# Quoted text

A string is quoted so that it can be told from its surroundings and each of its
characters can be read: quotes and backslashes are escaped, common control
characters have names, and what cannot be read off a page is written as its code
point.
-/

namespace StackScript

/-- A code point in hexadecimal, between braces. -/
def codePointEscape (c : Char) : String :=
  "\\u\x7b" ++ String.ofList (Nat.toDigits 16 c.toNat) ++ "\x7d"

/-- **How a character is written inside quotes.** -/
def quotedChar (c : Char) : String :=
  match c with
  | '\x00' => "\\0"
  | '\t' => "\\t"
  | '\n' => "\\n"
  | '\r' => "\\r"
  | '"' => "\\\""
  | '\\' => "\\\\"
  | c =>
    if c.toNat < 0x20 then codePointEscape c
    else if c.toNat < 0x7F then c.toString
    else if isUnprintable c then codePointEscape c
    else c.toString

/-- **A string in double quotes.** -/
def quoted (s : String) : String :=
  "\"" ++ String.join (s.toList.map quotedChar) ++ "\""

end StackScript
