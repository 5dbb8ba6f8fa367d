import StackScript.Syntax.Operator
import StackScript.Token.Basic

/-!
# Programs

A **program** is a list of statements; a statement binds a name, returns a
value or evaluates an expression, and the bodies of conditionals and functions
are blocks of statements again. Every node carries the span of source it was
read from. Parentheses leave no node, but widen the span of what they enclose.
-/

namespace StackScript

/-- A name where it is bound. -/
structure Ident where
  /-- The name. -/
  name : String
  /-- Where the name stands. -/
  span : Span
deriving DecidableEq, Inhabited

mutual

/-- **An expression**, with its span last. -/
inductive Expr where
  /-- A name. -/
  | ident (name : String) (span : Span)
  /-- A number. -/
  | number (value : Number) (span : Span)
  /-- A truth value. -/
  | boolean (value : Bool) (span : Span)
  /-- A string. -/
  | string (value : String) (span : Span)
  /-- An operator before its operand. -/
  | unary (op : UnaryOp) (operand : Expr) (span : Span)
  /-- An operator between its operands. -/
  | binary (op : BinaryOp) (left right : Expr) (span : Span)
  /-- A conditional; the other branch may be missing. -/
  | cond (test : Expr) (yes : Block) (no : Option Block) (span : Span)
  /-- A function literal, with the name it is bound to if it is the value of a
  binding. -/
  | function (name : Option String) (params : List Ident) (body : Block) (span : Span)
  /-- A call. -/
  | call (callee : Expr) (args : List Expr) (span : Span)
  /-- An array. -/
  | array (items : List Expr) (span : Span)
  /-- A look-up in an array or a map. -/
  | index (container key : Expr) (span : Span)
  /-- A map. -/
  | map (entries : List (Expr × Expr)) (span : Span)

/-- **A statement**, with its span last. The semicolon is not part of it. -/
inductive Stmt where
  /-- Binds a name to a value. -/
  | bind (name : Ident) (value : Expr) (span : Span)
  /-- Returns a value from a function. -/
  | ret (value : Expr) (span : Span)
  /-- Evaluates an expression. -/
  | expr (value : Expr) (span : Span)

/-- **Statements in braces.** -/
inductive Block where
  /-- The statements, and the span from brace to brace. -/
  | mk (body : List Stmt) (span : Span)

end

instance : Inhabited Expr := ⟨.ident "" default⟩

instance : Inhabited Stmt := ⟨.expr default default⟩

instance : Inhabited Block := ⟨.mk [] default⟩

/-- The statements of a block. -/
def Block.body : Block → List Stmt
  | mk body _ => body

/-- The span of a block, braces included. -/
def Block.span : Block → Span
  | mk _ span => span

/-- The span of a statement. -/
def Stmt.span : Stmt → Span
  | bind _ _ span | ret _ span | expr _ span => span

namespace Expr

/-- The span of an expression. -/
def span : Expr → Span
  | ident _ s | number _ s | boolean _ s | string _ s | unary _ _ s | binary _ _ _ s
  | cond _ _ _ s | function _ _ _ s | call _ _ s | array _ s | index _ _ s | map _ s => s

/-- The expression with another span, as parentheses give it. -/
def withSpan (s : Span) : Expr → Expr
  | ident name _ => ident name s
  | number value _ => number value s
  | boolean value _ => boolean value s
  | string value _ => string value s
  | unary op operand _ => unary op operand s
  | binary op left right _ => binary op left right s
  | cond test yes no _ => cond test yes no s
  | function name params body _ => function name params body s
  | call callee args _ => call callee args s
  | array items _ => array items s
  | index container key _ => index container key s
  | map entries _ => map entries s

/-- The expression as the value of a binding: a function literal takes the
name, so that its body can call it. -/
def named (name : String) : Expr → Expr
  | function _ params body s => function (some name) params body s
  | e => e

end Expr

end StackScript
