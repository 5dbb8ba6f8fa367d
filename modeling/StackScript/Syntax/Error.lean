import StackScript.Token.Basic

/-!
# Syntax errors

A syntax error is **a token where another was expected**. That is all it holds:
the span of the error is the token's, and so is the message if the token is no
token of the language in the first place.
-/

namespace StackScript

/-- **What the reader of a program was waiting for.** -/
inductive Expectation where
  /-- The beginning of an expression. -/
  | expression
  /-- A name to be bound. -/
  | identifier
  /-- One particular token. -/
  | token (kind : TokenKind)
deriving DecidableEq

/-- What messages call the expectation. -/
def Expectation.name : Expectation → String
  | expression => "expression"
  | identifier => "identifier"
  | token kind => kind.name

/-- **A token where another was expected.** -/
structure ParseError where
  /-- What was expected. -/
  expected : Expectation
  /-- The token found instead. -/
  found : Token
deriving DecidableEq

namespace ParseError

/-- Where the error is. -/
def span (e : ParseError) : Span := e.found.span

/-- What the error is. -/
def message (e : ParseError) : String :=
  match e.found.kind with
  | .error cause => cause.message
  | kind => s!"expected {e.expected.name}, found {kind.name}"

/-- What the error is, and where. -/
def text (e : ParseError) : String := s!"{e.message} at {e.span.text}"

end ParseError

end StackScript
