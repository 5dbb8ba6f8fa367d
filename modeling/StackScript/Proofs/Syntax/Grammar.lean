import StackScript.Syntax.Parser

/-!
# The grammar

`Spells` says which sequences of kinds of tokens are **renderings** of a
program, and of each form that programs consist of. It says so without a word on
how programs are read.

## Expressions

Expressions are stratified by how tightly the operators bind that stand in them
outside of all brackets. The strata one to four belong to the operators between
two operands, whose left operand is of the same stratum and whose right operand
is of the next: this is what groups them to the left. The fifth belongs to the
operators before an operand, the sixth to calls and look-ups, and the seventh to
what needs no operators at all.

Parentheses leave no node, but the span of the node inside may be another.
Nothing here asks for particular spans anywhere.

## Statements

A semicolon ends a statement, and it may be missing where nothing could be
mistaken for a continuation: at the end of the statements, and before a token
that is no operator between operands and opens neither arguments nor an index.
-/

namespace StackScript

/-- The sign of an operator before its operand. -/
def UnaryOp.kind : UnaryOp → TokenKind
  | not => .bang
  | negate => .minus

/-- The sign of an operator between its operands. -/
def BinaryOp.kind : BinaryOp → TokenKind
  | add => .plus
  | sub => .minus
  | mul => .star
  | div => .slash
  | less => .less
  | greater => .greater
  | equal => .equal
  | notEqual => .notEqual

/-- The stratum of an operator between its operands. -/
def BinaryOp.stratum : BinaryOp → Nat
  | equal | notEqual => 1
  | less | greater => 2
  | add | sub => 3
  | mul | div => 4

/-- Whether a token could go on with an expression: the operators between
operands, and what opens arguments or an index. -/
def TokenKind.continues : TokenKind → Bool
  | plus | minus | star | slash | less | greater | equal | notEqual | parenOpen | bracketOpen =>
    true
  | _ => false

/-- The literal of a truth value. -/
def TokenKind.ofBool : Bool → TokenKind
  | true => .trueWord
  | false => .falseWord

/-- **What tokens can render.** -/
inductive Form where
  /-- An expression whose operators bind at least so tightly. -/
  | expr (strength : Nat) (e : Expr)
  /-- Expressions with commas between them. -/
  | exprs (es : List Expr)
  /-- The entries of a map. -/
  | entries (xs : List (Expr × Expr))
  /-- The parameters of a function. -/
  | params (xs : List Ident)
  /-- Statements in braces. -/
  | block (block : Block)
  /-- A statement without its semicolon. -/
  | stmt (s : Stmt)
  /-- Statements one after another. -/
  | stmts (ss : List Stmt)

/-- **A rendering of a form.** -/
inductive Spells : List TokenKind → Form → Prop where
  /-- An expression of a tighter stratum. -/
  | tighter {ks : List TokenKind} {n : Nat} {e : Expr} :
      Spells ks (.expr (n + 1) e) → Spells ks (.expr n e)
  | binary {ks ks' : List TokenKind} {op : BinaryOp} {left right : Expr} {span : Span} :
      Spells ks (.expr op.stratum left) → Spells ks' (.expr (op.stratum + 1) right) →
      Spells (ks ++ op.kind :: ks') (.expr op.stratum (.binary op left right span))
  | unary {ks : List TokenKind} {op : UnaryOp} {e : Expr} {span : Span} :
      Spells ks (.expr 5 e) → Spells (op.kind :: ks) (.expr 5 (.unary op e span))
  | call {ks ks' : List TokenKind} {callee : Expr} {args : List Expr} {span : Span} :
      Spells ks (.expr 6 callee) → Spells ks' (.exprs args) →
      Spells (ks ++ .parenOpen :: (ks' ++ [.parenClose])) (.expr 6 (.call callee args span))
  | index {ks ks' : List TokenKind} {container key : Expr} {span : Span} :
      Spells ks (.expr 6 container) → Spells ks' (.expr 1 key) →
      Spells (ks ++ .bracketOpen :: (ks' ++ [.bracketClose])) (.expr 6 (.index container key span))
  | ident {name : String} {span : Span} :
      Spells [.identifier name] (.expr 7 (.ident name span))
  | number {value : Number} {span : Span} : Spells [.number value] (.expr 7 (.number value span))
  | string {value : String} {span : Span} : Spells [.string value] (.expr 7 (.string value span))
  | boolean {value : Bool} {span : Span} :
      Spells [.ofBool value] (.expr 7 (.boolean value span))
  | group {ks : List TokenKind} {e : Expr} {span : Span} : Spells ks (.expr 1 e) →
      Spells (.parenOpen :: (ks ++ [.parenClose])) (.expr 7 (e.withSpan span))
  | cond {ks ks' : List TokenKind} {test : Expr} {yes : Block} {span : Span} :
      Spells ks (.expr 1 test) → Spells ks' (.block yes) →
      Spells (.ifWord :: .parenOpen :: (ks ++ .parenClose :: ks'))
        (.expr 7 (.cond test yes none span))
  | condElse {ks ks' ks'' : List TokenKind} {test : Expr} {yes no : Block} {span : Span} :
      Spells ks (.expr 1 test) → Spells ks' (.block yes) → Spells ks'' (.block no) →
      Spells (.ifWord :: .parenOpen :: (ks ++ .parenClose :: (ks' ++ .elseWord :: ks'')))
        (.expr 7 (.cond test yes (some no) span))
  | function {ks ks' : List TokenKind} {params : List Ident} {body : Block} {span : Span} :
      Spells ks (.params params) → Spells ks' (.block body) →
      Spells (.fnWord :: .parenOpen :: (ks ++ .parenClose :: ks'))
        (.expr 7 (.function none params body span))
  | array {ks : List TokenKind} {items : List Expr} {span : Span} : Spells ks (.exprs items) →
      Spells (.bracketOpen :: (ks ++ [.bracketClose])) (.expr 7 (.array items span))
  | map {ks : List TokenKind} {entries : List (Expr × Expr)} {span : Span} :
      Spells ks (.entries entries) →
      Spells (.braceOpen :: (ks ++ [.braceClose])) (.expr 7 (.map entries span))
  | exprsNil : Spells [] (.exprs [])
  | exprsOne {ks : List TokenKind} {e : Expr} : Spells ks (.expr 1 e) → Spells ks (.exprs [e])
  | exprsCons {ks ks' : List TokenKind} {e e' : Expr} {es : List Expr} :
      Spells ks (.expr 1 e) → Spells ks' (.exprs (e' :: es)) →
      Spells (ks ++ .comma :: ks') (.exprs (e :: e' :: es))
  | entriesNil : Spells [] (.entries [])
  | entriesOne {ks ks' : List TokenKind} {key value : Expr} :
      Spells ks (.expr 1 key) → Spells ks' (.expr 1 value) →
      Spells (ks ++ .colon :: ks') (.entries [(key, value)])
  /-- No entry need follow a comma. -/
  | entriesCons {ks ks' ks'' : List TokenKind} {key value : Expr} {xs : List (Expr × Expr)} :
      Spells ks (.expr 1 key) → Spells ks' (.expr 1 value) → Spells ks'' (.entries xs) →
      Spells (ks ++ .colon :: (ks' ++ .comma :: ks'')) (.entries ((key, value) :: xs))
  | paramsNil : Spells [] (.params [])
  | paramsOne {x : Ident} : Spells [.identifier x.name] (.params [x])
  | paramsCons {ks : List TokenKind} {x x' : Ident} {xs : List Ident} :
      Spells ks (.params (x' :: xs)) →
      Spells (.identifier x.name :: .comma :: ks) (.params (x :: x' :: xs))
  | block {ks : List TokenKind} {body : List Stmt} {span : Span} : Spells ks (.stmts body) →
      Spells (.braceOpen :: (ks ++ [.braceClose])) (.block (.mk body span))
  /-- A function literal that is the whole value takes the name. -/
  | bind {ks : List TokenKind} {name : Ident} {value : Expr} {span : Span} :
      Spells ks (.expr 1 value) →
      Spells (.letWord :: .identifier name.name :: .assign :: ks)
        (.stmt (.bind name (value.named name.name) span))
  | ret {ks : List TokenKind} {value : Expr} {span : Span} : Spells ks (.expr 1 value) →
      Spells (.returnWord :: ks) (.stmt (.ret value span))
  | expr {ks : List TokenKind} {value : Expr} {span : Span} : Spells ks (.expr 1 value) →
      Spells ks (.stmt (.expr value span))
  | stmtsNil : Spells [] (.stmts [])
  | stmtsCons {ks ks' : List TokenKind} {s : Stmt} {ss : List Stmt} :
      Spells ks (.stmt s) → Spells ks' (.stmts ss) →
      Spells (ks ++ .semicolon :: ks') (.stmts (s :: ss))
  /-- What follows does not go on with the statement. -/
  | stmtsJoin {ks ks' : List TokenKind} {s : Stmt} {ss : List Stmt} :
      Spells ks (.stmt s) → Spells ks' (.stmts ss) →
      (∀ k ∈ ks'.head?, k.continues = false) → Spells (ks ++ ks') (.stmts (s :: ss))

namespace Spells

variable {ks : List TokenKind} {f : Form} {n m : Nat} {e : Expr}

/-- An expression of a stratum is one of every stratum below it. -/
theorem weaken (h : Spells ks (.expr n e)) (hm : m ≤ n) : Spells ks (.expr m e) := by
  induction n with
  | zero => exact Nat.le_zero.1 hm ▸ h
  | succ n ih =>
    rcases Nat.lt_or_eq_of_le hm with hlt | rfl
    · exact ih h.tighter (Nat.le_of_lt_succ hlt)
    · exact h

/-! ## Tokens that are in no rendering -/

/-- Whether a token can stand in a rendering: neither a piece of source that is
no token nor the end of the source can. -/
def proper : TokenKind → Bool
  | .error _ | .eof => false
  | _ => true

theorem proper_unary (op : UnaryOp) : proper op.kind = true := by cases op <;> rfl

theorem proper_binary (op : BinaryOp) : proper op.kind = true := by cases op <;> rfl

theorem proper_ofBool (b : Bool) : proper (.ofBool b) = true := by cases b <;> rfl

/-- **All tokens of a rendering are proper.** -/
theorem all_proper (h : Spells ks f) : ∀ k ∈ ks, proper k = true := by
  induction h with
  | exprsNil | entriesNil | paramsNil | stmtsNil => simp
  | ident | number | string | paramsOne => simp [proper]
  | boolean => simp [proper_ofBool]
  | tighter _ ih | exprsOne _ ih | expr _ ih => exact ih
  | unary _ ih => simpa [proper_unary] using ih
  | group _ ih | array _ ih | map _ ih | paramsCons _ ih | block _ ih | bind _ ih | ret _ ih =>
    simpa [proper, or_imp, forall_and] using ih
  | binary _ _ ih₁ ih₂ => simpa [proper_binary, or_imp, forall_and] using ⟨ih₁, ih₂⟩
  | call _ _ ih₁ ih₂ | index _ _ ih₁ ih₂ | cond _ _ ih₁ ih₂ | function _ _ ih₁ ih₂
  | exprsCons _ _ ih₁ ih₂ | entriesOne _ _ ih₁ ih₂ | stmtsCons _ _ ih₁ ih₂
  | stmtsJoin _ _ _ ih₁ ih₂ => simpa [proper, or_imp, forall_and] using ⟨ih₁, ih₂⟩
  | condElse _ _ _ ih₁ ih₂ ih₃ | entriesCons _ _ _ ih₁ ih₂ ih₃ =>
    simpa [proper, or_imp, forall_and] using ⟨ih₁, ih₂, ih₃⟩

end Spells

/-! ## How renderings begin -/

namespace TokenKind

/-- Whether a token can be the first of an expression. -/
def startsOperand : TokenKind → Bool
  | identifier _ | number _ | string _ | trueWord | falseWord | bang | minus | parenOpen | ifWord
  | fnWord | bracketOpen | braceOpen => true
  | _ => false

/-- Whether a token can be the first of a statement. -/
def startsStatement (k : TokenKind) : Bool := k = .letWord || k = .returnWord || k.startsOperand

theorem startsOperand_unary (op : UnaryOp) : op.kind.startsOperand = true := by cases op <;> rfl

theorem startsOperand_ofBool (b : Bool) : (ofBool b).startsOperand = true := by cases b <;> rfl

end TokenKind

/-- How the rendering of a form begins. -/
def Form.Begins (ks : List TokenKind) : Form → Prop
  | .expr _ _ => ∃ k rest, ks = k :: rest ∧ k.startsOperand = true
  | .exprs [] => ks = []
  | .exprs (_ :: _) => ∃ k rest, ks = k :: rest ∧ k.startsOperand = true
  | .stmt _ => ∃ k rest, ks = k :: rest ∧ k.startsStatement = true
  | .stmts [] => ks = []
  | .stmts (_ :: _) => ∃ k rest, ks = k :: rest ∧ k.startsStatement = true
  | _ => True

/-- **A rendering begins as its form does.** There is one case for each rule. So
one token tells whether there is another operand or statement at all. -/
theorem Spells.begins {ks : List TokenKind} {f : Form} (h : Spells ks f) : f.Begins ks := by
  induction h with
  | tighter _ ih => exact ih
  | binary _ _ ih | call _ _ ih | index _ _ ih =>
    obtain ⟨k, rest, rfl, hk⟩ := ih
    exact ⟨k, _, rfl, hk⟩
  | unary => exact ⟨_, _, rfl, TokenKind.startsOperand_unary _⟩
  | boolean => exact ⟨_, _, rfl, TokenKind.startsOperand_ofBool _⟩
  | ident | number | string | group | cond | condElse | function | array | map =>
    exact ⟨_, _, rfl, rfl⟩
  | exprsNil | stmtsNil => rfl
  | exprsOne _ ih => exact ih
  | exprsCons _ _ ih =>
    obtain ⟨k, rest, rfl, hk⟩ := ih
    exact ⟨k, _, rfl, hk⟩
  | bind | ret => exact ⟨_, _, rfl, rfl⟩
  | expr _ ih =>
    obtain ⟨k, rest, rfl, hk⟩ := ih
    exact ⟨k, rest, rfl, by simp [TokenKind.startsStatement, hk]⟩
  | stmtsCons _ _ ih | stmtsJoin _ _ _ ih =>
    obtain ⟨k, rest, rfl, hk⟩ := ih
    exact ⟨k, _, rfl, hk⟩
  | entriesNil | entriesOne | entriesCons | paramsNil | paramsOne | paramsCons | block => trivial

end StackScript
