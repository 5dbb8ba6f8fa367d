import StackScript.Number.Text
import StackScript.Token.Basic

/-!
# Cutting source into tokens

Source is read as bytes. Between tokens stand blanks and comments; a token is
then cut off in two steps that know nothing of each other. The **extent** of a
token is the number of bytes it takes, found from what lies ahead; its **kind**
is found from those bytes alone. Positions are not part of either: a token's
span is where its bytes begin and end.

A string ends at its closing quote, at an escape that the language does not
know, or with the source. In the second case the rest of the string is read as
ordinary source, from the byte right after the escape. A byte that begins no
token takes with it the continuation bytes that follow, so that a character
outside ASCII is one token.
-/

namespace StackScript

/-- The position after some more bytes. -/
def Pos.advance (p : Pos) (bytes : List UInt8) : Pos := bytes.foldl Pos.next p

namespace Lexer

/-! ## Classes of bytes -/

/-- Blanks between tokens: space, tab, carriage return and line feed. -/
def isBlank (byte : UInt8) : Bool :=
  byte == 0x20 || byte == 0x09 || byte == 0x0D || byte == 0x0A

/-- The ASCII digits. -/
def isDigit (byte : UInt8) : Bool := 0x30 ≤ byte && byte ≤ 0x39

/-- The bytes a word may begin with: ASCII letters and the underscore. -/
def isWordStart (byte : UInt8) : Bool :=
  (0x61 ≤ byte && byte ≤ 0x7A) || (0x41 ≤ byte && byte ≤ 0x5A) || byte == 0x5F

/-- The bytes a word may go on with. -/
def isWordByte (byte : UInt8) : Bool := isWordStart byte || isDigit byte

/-- The bytes that continue a character in UTF-8. -/
def isContinuation (byte : UInt8) : Bool := 0x80 ≤ byte && byte ≤ 0xBF

/-- The byte that opens and closes a string. -/
def quote : UInt8 := 0x22

/-- The byte that begins an escape. -/
def backslash : UInt8 := 0x5C

/-- The byte that an escape stands for, given the byte after the backslash. -/
def escaped? (byte : UInt8) : Option UInt8 :=
  if byte == 0x6E then some 0x0A
  else if byte == 0x74 then some 0x09
  else if byte == quote then some quote
  else if byte == backslash then some backslash
  else none

/-- The tokens of one byte. -/
def mark? (byte : UInt8) : Option TokenKind :=
  match Char.ofUInt8 byte with
  | '=' => some .assign
  | '!' => some .bang
  | '+' => some .plus
  | '-' => some .minus
  | '*' => some .star
  | '/' => some .slash
  | '<' => some .less
  | '>' => some .greater
  | ',' => some .comma
  | ';' => some .semicolon
  | ':' => some .colon
  | '(' => some .parenOpen
  | ')' => some .parenClose
  | '\x7b' => some .braceOpen
  | '\x7d' => some .braceClose
  | '[' => some .bracketOpen
  | ']' => some .bracketClose
  | _ => none

/-- The token that a one-byte token becomes before an equals sign. -/
def doubled? : TokenKind → Option TokenKind
  | .assign => some .equal
  | .bang => some .notEqual
  | _ => none

/-! ## Extents -/

/-- **The bytes before the next token**, counted on from `count`: blanks, and
comments from two slashes to the end of the line. -/
def triviaExtent (inComment : Bool) (count : Nat) : List UInt8 → Nat
  | [] => count
  | byte :: rest =>
    if inComment then triviaExtent (byte != 0x0A) (count + 1) rest
    else if isBlank byte then triviaExtent false (count + 1) rest
    else if byte == 0x2F && rest.head? == some 0x2F then triviaExtent true (count + 1) rest
    else count

/-- **The bytes of a string** after its opening quote, counted on from
`count`. -/
def stringExtent (count : Nat) : List UInt8 → Nat
  | [] => count
  | byte :: rest =>
    if byte == quote then count + 1
    else if byte == backslash then
      match rest with
      | [] => count + 1
      | code :: rest =>
        if (escaped? code).isSome then stringExtent (count + 2) rest else count + 2
    else stringExtent (count + 1) rest

/-- The digits at the front. -/
def digits (bytes : List UInt8) : List UInt8 := bytes.takeWhile isDigit

/-- **The bytes of a number** after its first digit: digits, and a point with
more digits if a digit follows the point. -/
def numberExtent (bytes : List UInt8) : Nat :=
  let whole := (digits bytes).length
  match bytes.drop whole with
  | 0x2E :: rest =>
    let fraction := (digits rest).length
    if fraction = 0 then whole else whole + 1 + fraction
  | _ => whole

/-- **The bytes of a token after its first**, which is given. -/
def extent (first : UInt8) (rest : List UInt8) : Nat :=
  if first == quote then stringExtent 0 rest
  else if isDigit first then numberExtent rest
  else if isWordStart first then (rest.takeWhile isWordByte).length
  else
    match mark? first with
    | some mark => if (doubled? mark).isSome && rest.head? == some 0x3D then 1 else 0
    | none => (rest.takeWhile isContinuation).length

/-! ## Kinds -/

/-- The text that bytes encode; empty if they encode none. -/
def decode (bytes : List UInt8) : String :=
  (String.fromUTF8? ⟨bytes.toArray⟩).getD ""

/-- **The contents of a string**, from the bytes after its opening quote,
following the contents already found. -/
def contents (found : Array UInt8) : List UInt8 → Except LexError (Array UInt8)
  | [] => .error .unterminatedString
  | byte :: rest =>
    if byte == quote then .ok found
    else if byte == backslash then
      match rest with
      | [] => .error .unterminatedString
      | code :: rest =>
        match escaped? code with
        | some byte => contents (found.push byte) rest
        | none => .error (.unknownEscape (Char.ofUInt8 code))
    else contents (found.push byte) rest

/-- The kind of a string, from the bytes after its opening quote. -/
def stringKind (body : List UInt8) : TokenKind :=
  match contents #[] body with
  | .error cause => .error cause
  | .ok bytes =>
    match String.fromUTF8? ⟨bytes⟩ with
    | some text => .string text
    | none => .error .invalidText

/-- The kind of a word: reserved, or an identifier. -/
def wordKind (word : String) : TokenKind :=
  (TokenKind.keyword? word).getD (.identifier word)

/-- **The kind of a token**, from its first byte and the others. -/
def kind (first : UInt8) (rest : List UInt8) : TokenKind :=
  if first == quote then stringKind rest
  else if isDigit first then
    let lexeme := first :: rest
    let whole := digits lexeme
    .number (Number.ofDigits whole (lexeme.drop (whole.length + 1)))
  else if isWordStart first then wordKind (decode (first :: rest))
  else
    match mark? first with
    | some mark => if rest.isEmpty then mark else (doubled? mark).getD mark
    | none =>
      if first < 0x80 then .error (.unexpectedCharacter (Char.ofUInt8 first).toString)
      else .error (.unexpectedCharacter (decode (first :: rest)))

/-! ## The tokens of a source -/

/-- **The tokens of some bytes** that begin at a position, after the tokens
already found. -/
def tokensFrom (found : Array Token) (pos : Pos) (bytes : List UInt8) : Array Token :=
  let gap := triviaExtent false 0 bytes
  let start := pos.advance (bytes.take gap)
  match _h : bytes.drop gap with
  | [] => found.push ⟨.eof, Span.point start⟩
  | first :: rest =>
    let size := extent first rest
    let tail := rest.take size
    let stop := start.advance (first :: tail)
    tokensFrom (found.push ⟨kind first tail, ⟨start, stop⟩⟩) stop (rest.drop size)
termination_by bytes.length
decreasing_by
  have := congrArg List.length _h
  simp only [List.length_drop, List.length_cons] at this ⊢
  omega

end Lexer

/-- **The tokens of a source**, ending with the end of the source. -/
def tokens (source : String) : List Token :=
  (Lexer.tokensFrom #[] Pos.origin source.toUTF8.data.toList).toList

end StackScript
