import StackScript.Number.Basic
import StackScript.Source.Span

/-!
# Tokens

A **token** is a kind and the span of source it was read from. Literals and
identifiers carry their contents, and a piece of source that is no token of the
language is a token all the same, of kind `error`: reading never stops, and
what to do about the error is left to whoever reads the tokens.

The end of the source is a token too, the last one.
-/

namespace StackScript

/-- **Why a piece of source is no token.** -/
inductive LexError where
  /-- The source ends inside a string. -/
  | unterminatedString
  /-- A backslash in a string is followed by a byte that names no escape; the
  byte is kept as the character of the same number. -/
  | unknownEscape (character : Char)
  /-- The bytes of a string are not the encoding of any text. -/
  | invalidText
  /-- A character that begins no token; empty if its bytes encode none. -/
  | unexpectedCharacter (text : String)
deriving DecidableEq

/-- The wording of an error inside a token. -/
def LexError.message : LexError → String
  | .unterminatedString => "unterminated string"
  | .unknownEscape c => "unknown escape `\\" ++ c.toString ++ "`"
  | .invalidText => "string is not valid UTF-8"
  | .unexpectedCharacter text => "unexpected character `" ++ text ++ "`"

/-- **The kind of a token**, with the contents of literals and identifiers. -/
inductive TokenKind where
  /-- A number literal. -/
  | number (value : Number)
  /-- A string literal, unescaped and without its quotes. -/
  | string (value : String)
  /-- A word that is not reserved. -/
  | identifier (name : String)
  /-- The word that begins a binding. -/
  | letWord
  /-- The word that begins a function literal. -/
  | fnWord
  /-- The literal of truth. -/
  | trueWord
  /-- The literal of falsehood. -/
  | falseWord
  /-- The word that begins a conditional. -/
  | ifWord
  /-- The word before the other branch of a conditional. -/
  | elseWord
  /-- The word that begins a return. -/
  | returnWord
  /-- The sign between a binding's name and its value. -/
  | assign
  /-- The sign of addition. -/
  | plus
  /-- The sign of subtraction and of negation. -/
  | minus
  /-- The sign of logical negation. -/
  | bang
  /-- The sign of multiplication. -/
  | star
  /-- The sign of division. -/
  | slash
  /-- The sign "less than". -/
  | less
  /-- The sign "greater than". -/
  | greater
  /-- The sign of equality. -/
  | equal
  /-- The sign of inequality. -/
  | notEqual
  /-- The mark between items. -/
  | comma
  /-- The mark after a statement. -/
  | semicolon
  /-- The mark between a map's key and its value. -/
  | colon
  /-- The mark that opens a group, parameters or arguments. -/
  | parenOpen
  /-- The mark that closes a group, parameters or arguments. -/
  | parenClose
  /-- The mark that opens a block or a map. -/
  | braceOpen
  /-- The mark that closes a block or a map. -/
  | braceClose
  /-- The mark that opens an array or an index. -/
  | bracketOpen
  /-- The mark that closes an array or an index. -/
  | bracketClose
  /-- The end of the source. -/
  | eof
  /-- A piece of source that is no token. -/
  | error (cause : LexError)
deriving DecidableEq

instance : Inhabited TokenKind := ⟨.eof⟩

namespace TokenKind

/-- What messages call a token of this kind. -/
def name : TokenKind → String
  | number _ => "number"
  | string _ => "string"
  | identifier _ => "identifier"
  | letWord => "`let`"
  | fnWord => "`fn`"
  | trueWord => "`true`"
  | falseWord => "`false`"
  | ifWord => "`if`"
  | elseWord => "`else`"
  | returnWord => "`return`"
  | assign => "`=`"
  | plus => "`+`"
  | minus => "`-`"
  | bang => "`!`"
  | star => "`*`"
  | slash => "`/`"
  | less => "`<`"
  | greater => "`>`"
  | equal => "`==`"
  | notEqual => "`!=`"
  | comma => "`,`"
  | semicolon => "`;`"
  | colon => "`:`"
  | parenOpen => "`(`"
  | parenClose => "`)`"
  | braceOpen => "`\x7b`"
  | braceClose => "`\x7d`"
  | bracketOpen => "`[`"
  | bracketClose => "`]`"
  | eof => "end of input"
  | error _ => "error"

/-- The kind of a reserved word. -/
def keyword? (word : String) : Option TokenKind :=
  match word with
  | "let" => some letWord
  | "fn" => some fnWord
  | "true" => some trueWord
  | "false" => some falseWord
  | "if" => some ifWord
  | "else" => some elseWord
  | "return" => some returnWord
  | _ => none

end TokenKind

/-- **A token**: its kind, and the source it was read from. -/
structure Token where
  /-- What the token is. -/
  kind : TokenKind
  /-- Where the token stands. -/
  span : Span
deriving DecidableEq, Inhabited

end StackScript
