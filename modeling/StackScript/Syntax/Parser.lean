import StackScript.Syntax.Basic
import StackScript.Syntax.Error
import StackScript.Token.Lexer

/-!
# Reading programs

A program is read **one token at a time**. What has been read so far is a
`State`: the innermost construct that is still open, what encloses it, and so on
out to the program. Each token either takes the state to the next one or is the
place of a syntax error (`State.step`), and nothing ever looks ahead, so where
the first error lies depends on no token after it.

## What is open

Three kinds of construct enclose each other. A `Level` is a sequence of
statements, the program or a block. A `Context` is a construct that waits for an
expression: a statement, a group, an argument, and so on. A `Place` is where an
operand is wanted: a context, and the operators read since it was opened that
still wait for their right operand. Lists of what is complete run backwards,
the newest first.

## Operators

After an operand comes either a token that extends it – an operator between
operands, the opening of a call or of an index – or a token that ends the
expression. An extension first completes the waiting operators that bind at
least as tightly, so that operators of one strength group to the left; a token
that ends the expression completes them all.

## After an error

A syntax error abandons everything that is open. Reading resumes with a new
statement of the program after the next semicolon, which may be the offending
token itself.
-/

namespace StackScript

/-! ## Tokens after an operand -/

/-- **What a token makes of the operand before it**, if it does not end the
expression. -/
inductive Extension where
  /-- The left operand of an operator. -/
  | binary (op : BinaryOp)
  /-- The function of a call. -/
  | call
  /-- The container of a look-up. -/
  | index
deriving DecidableEq

/-- How tightly an extension binds. -/
def Extension.strength : Extension → Nat
  | binary op => op.strength
  | call => 6
  | index => 7

/-- The extension that a token begins. -/
def TokenKind.extension? : TokenKind → Option Extension
  | .plus => some (.binary .add)
  | .minus => some (.binary .sub)
  | .star => some (.binary .mul)
  | .slash => some (.binary .div)
  | .less => some (.binary .less)
  | .greater => some (.binary .greater)
  | .equal => some (.binary .equal)
  | .notEqual => some (.binary .notEqual)
  | .parenOpen => some .call
  | .bracketOpen => some .index
  | _ => none

/-! ## What is open -/

/-- **An operator that waits for its right operand.** -/
inductive Pending where
  /-- An operator before its operand, and where it stands. -/
  | unary (op : UnaryOp) (start : Span)
  /-- An operator after its left operand. -/
  | binary (op : BinaryOp) (left : Expr)

namespace Pending

/-- How tightly a waiting operator binds. -/
def strength : Pending → Nat
  | unary .. => UnaryOp.strength
  | binary op _ => op.strength

/-- The expression that a waiting operator makes of its operand. -/
def apply (operand : Expr) : Pending → Expr
  | unary op start => .unary op operand (start.merge operand.span)
  | binary op left => .binary op left operand (left.span.merge operand.span)

/-- **Completes the operators that bind at least as tightly** as what follows,
the newest first. -/
def settle (strength : Nat) (e : Expr) : List Pending → Expr × List Pending
  | [] => (e, [])
  | p :: rest =>
    if strength ≤ p.strength then settle strength (p.apply e) rest else (e, p :: rest)

/-- Completes every waiting operator, the newest first. -/
def settleAll (e : Expr) (pending : List Pending) : Expr := pending.foldl Pending.apply e

end Pending

/-- **Whose block is being read.** -/
inductive Owner where
  /-- The branch of a conditional whose test is true. -/
  | yes (start : Span) (test : Expr)
  /-- The other branch of a conditional. -/
  | no (start : Span) (test : Expr) (yes : Block)
  /-- The body of a function literal. -/
  | function (start : Span) (params : List Ident)

mutual

/-- **A sequence of statements being read.** -/
inductive Level where
  /-- The program. -/
  | program (done : List Stmt)
  /-- A block that began with a brace, and where its owner is wanted. -/
  | block (owner : Owner) (brace : Span) (done : List Stmt) (outer : Place)

/-- **A construct that waits for an expression.** -/
inductive Context where
  /-- A statement that is just an expression. -/
  | statement (level : Level)
  /-- A binding, after its sign. -/
  | bindValue (start : Span) (name : Ident) (level : Level)
  /-- A return, after its word. -/
  | retValue (start : Span) (level : Level)
  /-- A group in parentheses. -/
  | group (start : Span) (outer : Place)
  /-- An argument of a call. -/
  | argument (callee : Expr) (done : List Expr) (outer : Place)
  /-- The key of a look-up. -/
  | lookup (container : Expr) (outer : Place)
  /-- An item of an array. -/
  | item (start : Span) (done : List Expr) (outer : Place)
  /-- A key of a map. -/
  | key (start : Span) (done : List (Expr × Expr)) (outer : Place)
  /-- A value of a map, after its key. -/
  | value (start : Span) (done : List (Expr × Expr)) (key : Expr) (outer : Place)
  /-- The test of a conditional. -/
  | test (start : Span) (outer : Place)

/-- **Where an operand is wanted.** -/
inductive Place where
  /-- The operators that wait for it, and the construct around them. -/
  | mk (pending : List Pending) (context : Context)

end

/-- The place with one more waiting operator. -/
def Place.push (p : Pending) : Place → Place
  | mk pending context => mk (p :: pending) context

/-- The sequence with one more statement. -/
def Level.push (s : Stmt) : Level → Level
  | program done => program (s :: done)
  | block owner brace done outer => block owner brace (s :: done) outer

/-- **What has been read, by what comes next.** -/
inductive State where
  /-- A statement, or the end of the sequence. -/
  | statement (level : Level)
  /-- The name of a binding. -/
  | bindName (start : Span) (level : Level)
  /-- The sign of a binding. -/
  | bindSign (start : Span) (name : Ident) (level : Level)
  /-- An operand. -/
  | operand (place : Place)
  /-- What follows an operand. -/
  | operator (e : Expr) (place : Place)
  /-- The first argument of a call, or its end. -/
  | firstArgument (callee : Expr) (place : Place)
  /-- The first item of an array, or its end. -/
  | firstItem (start : Span) (place : Place)
  /-- A key of a map, or its end. -/
  | entry (start : Span) (done : List (Expr × Expr)) (place : Place)
  /-- The parenthesis before the test of a conditional. -/
  | testOpen (start : Span) (place : Place)
  /-- The brace of a conditional's first branch. -/
  | yesOpen (start : Span) (test : Expr) (place : Place)
  /-- The other branch of a conditional, or what follows without one. -/
  | yesDone (start : Span) (test : Expr) (yes : Block) (place : Place)
  /-- The brace of a conditional's other branch. -/
  | noOpen (start : Span) (test : Expr) (yes : Block) (place : Place)
  /-- The parenthesis before the parameters of a function. -/
  | paramsOpen (start : Span) (place : Place)
  /-- The first parameter of a function, or the end of the parameters. -/
  | firstParam (start : Span) (place : Place)
  /-- A parameter after a comma. -/
  | param (start : Span) (done : List Ident) (place : Place)
  /-- A comma, or the end of the parameters. -/
  | paramDone (start : Span) (done : List Ident) (place : Place)
  /-- The brace of a function's body. -/
  | bodyOpen (start : Span) (params : List Ident) (place : Place)
  /-- Nothing: the program is complete. -/
  | finished (program : List Stmt)

namespace State

/-- The state before the first token. -/
def initial : State := .statement (.program [])

/-- The error of finding a token instead of what was expected. -/
def unexpected (expected : Expectation) (t : Token) : Except ParseError State :=
  .error ⟨expected, t⟩

/-- The next state if the token is of the kind expected. -/
def expect (kind : TokenKind) (t : Token) (next : State) : Except ParseError State :=
  if t.kind = kind then .ok next else unexpected (.token kind) t

/-- **A token where an operand is wanted.** -/
def beginOperand (place : Place) (t : Token) : Except ParseError State :=
  match t.kind with
  | .identifier name => .ok (.operator (.ident name t.span) place)
  | .number value => .ok (.operator (.number value t.span) place)
  | .string value => .ok (.operator (.string value t.span) place)
  | .trueWord => .ok (.operator (.boolean true t.span) place)
  | .falseWord => .ok (.operator (.boolean false t.span) place)
  | .bang => .ok (.operand (place.push (.unary .not t.span)))
  | .minus => .ok (.operand (place.push (.unary .negate t.span)))
  | .parenOpen => .ok (.operand (.mk [] (.group t.span place)))
  | .ifWord => .ok (.testOpen t.span place)
  | .fnWord => .ok (.paramsOpen t.span place)
  | .bracketOpen => .ok (.firstItem t.span place)
  | .braceOpen => .ok (.entry t.span [] place)
  | _ => unexpected .expression t

/-- The state after the closing brace of a block. -/
def endBlock (owner : Owner) (block : Block) (place : Place) : State :=
  match owner with
  | .yes start test => .yesDone start test block place
  | .no start test yes =>
    .operator (.cond test yes (some block) (start.merge block.span)) place
  | .function start params =>
    .operator (.function none params block (start.merge block.span)) place

/-- **A token where a statement may begin or the sequence end.** -/
def beginStatement (level : Level) (t : Token) : Except ParseError State :=
  match t.kind, level with
  | .letWord, _ => .ok (.bindName t.span level)
  | .returnWord, _ => .ok (.operand (.mk [] (.retValue t.span level)))
  | .braceClose, .block owner brace done outer =>
    .ok (endBlock owner (.mk done.reverse (brace.merge t.span)) outer)
  | .eof, .block .. => unexpected (.token .braceClose) t
  | .eof, .program done => .ok (.finished done.reverse)
  | _, _ => beginOperand (.mk [] (.statement level)) t

/-- **A token after a complete statement**: a semicolon belongs to it, any other
token does not. -/
def endStatement (level : Level) (t : Token) : Except ParseError State :=
  if t.kind = .semicolon then .ok (.statement level) else beginStatement level t

/-- **A token that ends an expression**, by the construct that waited for it. -/
def close (e : Expr) (context : Context) (t : Token) : Except ParseError State :=
  match context with
  | .statement level => endStatement (level.push (.expr e e.span)) t
  | .bindValue start name level =>
    endStatement (level.push (.bind name (e.named name.name) (start.merge e.span))) t
  | .retValue start level => endStatement (level.push (.ret e (start.merge e.span))) t
  | .group start outer =>
    expect .parenClose t (.operator (e.withSpan (start.merge t.span)) outer)
  | .argument callee done outer =>
    if t.kind = .comma then .ok (.operand (.mk [] (.argument callee (e :: done) outer)))
    else
      expect .parenClose t
        (.operator (.call callee (e :: done).reverse (callee.span.merge t.span)) outer)
  | .lookup container outer =>
    expect .bracketClose t
      (.operator (.index container e (container.span.merge t.span)) outer)
  | .item start done outer =>
    if t.kind = .comma then .ok (.operand (.mk [] (.item start (e :: done) outer)))
    else
      expect .bracketClose t (.operator (.array (e :: done).reverse (start.merge t.span)) outer)
  | .key start done outer =>
    expect .colon t (.operand (.mk [] (.value start done e outer)))
  | .value start done key outer =>
    if t.kind = .braceClose then
      .ok (.operator (.map ((key, e) :: done).reverse (start.merge t.span)) outer)
    else expect .comma t (.entry start ((key, e) :: done) outer)
  | .test start outer => expect .parenClose t (.yesOpen start e outer)

/-- **A token after an operand**: it extends the operand or ends the
expression. -/
def afterOperand (e : Expr) (place : Place) (t : Token) : Except ParseError State :=
  match place, t.kind.extension? with
  | .mk pending context, some extension =>
    let (e, pending) := Pending.settle extension.strength e pending
    let place := Place.mk pending context
    match extension with
    | .binary op => .ok (.operand (place.push (.binary op e)))
    | .call => .ok (.firstArgument e place)
    | .index => .ok (.operand (.mk [] (.lookup e place)))
  | .mk pending context, none => close (Pending.settleAll e pending) context t

/-- A name to be bound. -/
def readName (t : Token) (next : Ident → State) : Except ParseError State :=
  match t.kind with
  | .identifier name => .ok (next ⟨name, t.span⟩)
  | _ => unexpected .identifier t

/-- **What a token does to what has been read.** -/
def step (s : State) (t : Token) : Except ParseError State :=
  match s with
  | statement level => beginStatement level t
  | bindName start level => readName t (.bindSign start · level)
  | bindSign start name level =>
    expect .assign t (.operand (.mk [] (.bindValue start name level)))
  | operand place => beginOperand place t
  | operator e place => afterOperand e place t
  | firstArgument callee place =>
    if t.kind = .parenClose then
      .ok (.operator (.call callee [] (callee.span.merge t.span)) place)
    else beginOperand (.mk [] (.argument callee [] place)) t
  | firstItem start place =>
    if t.kind = .bracketClose then .ok (.operator (.array [] (start.merge t.span)) place)
    else beginOperand (.mk [] (.item start [] place)) t
  | entry start done place =>
    if t.kind = .braceClose then
      .ok (.operator (.map done.reverse (start.merge t.span)) place)
    else beginOperand (.mk [] (.key start done place)) t
  | testOpen start place => expect .parenOpen t (.operand (.mk [] (.test start place)))
  | yesOpen start test place =>
    expect .braceOpen t (.statement (.block (.yes start test) t.span [] place))
  | yesDone start test yes place =>
    if t.kind = .elseWord then .ok (.noOpen start test yes place)
    else afterOperand (.cond test yes none (start.merge yes.span)) place t
  | noOpen start test yes place =>
    expect .braceOpen t (.statement (.block (.no start test yes) t.span [] place))
  | paramsOpen start place => expect .parenOpen t (.firstParam start place)
  | firstParam start place =>
    if t.kind = .parenClose then .ok (.bodyOpen start [] place)
    else readName t fun name => .paramDone start [name] place
  | param start done place => readName t fun name => .paramDone start (name :: done) place
  | paramDone start done place =>
    if t.kind = .comma then .ok (.param start done place)
    else expect .parenClose t (.bodyOpen start done.reverse place)
  | bodyOpen start params place =>
    expect .braceOpen t (.statement (.block (.function start params) t.span [] place))
  | finished program => .ok (.finished program)

end State

/-! ## Whole programs -/

/-- **How far the reading has come**: a state, or nothing while the rest of a
broken statement is skipped. -/
structure Reading where
  /-- What is open; nothing while skipping. -/
  state : Option State
  /-- The errors so far, in order. -/
  errors : Array ParseError

namespace Reading

/-- Before the first token. -/
def start : Reading := ⟨some .initial, #[]⟩

/-- What is open after an abandoned statement's token: a new statement after a
semicolon, else nothing yet. -/
def resume (t : Token) : Option State :=
  if t.kind = .semicolon then some .initial else none

/-- **Reads one token.** -/
def feed (r : Reading) (t : Token) : Reading :=
  match r.state with
  | none => { r with state := resume t }
  | some s =>
    match s.step t with
    | .ok next => { r with state := some next }
    | .error e => ⟨resume t, r.errors.push e⟩

/-- The program, if reading came to its end without an error. -/
def result (r : Reading) : Except (List ParseError) (List Stmt) :=
  match r.errors.toList, r.state with
  | [], some (.finished program) => .ok program
  | errors, _ => .error errors

end Reading

/-- **The program that tokens spell**, or every syntax error in them. The last
token is the end of the source. -/
def parseTokens (ts : List Token) : Except (List ParseError) (List Stmt) :=
  (ts.foldl Reading.feed .start).result

/-- **The program of a source**, or every syntax error in it. -/
def parse (source : String) : Except (List ParseError) (List Stmt) :=
  parseTokens (tokens source)

end StackScript
