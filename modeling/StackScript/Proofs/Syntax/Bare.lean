import StackScript.Syntax.Parser

/-!
# Reading without spans

Spans say where things stand, and nothing that is read depends on them. To state
this, everything that carries spans has a **bare** form in which all of them are
the same: programs, tokens, and what is open while a program is being read.

Forgetting the spans is then a homomorphism. To read a token and forget the
spans afterwards is to read the bare token in the bare state
(`State.bare_step`), because spans are only ever copied and merged, and the span
of a bare node is the merge of the spans of its parts. So the bare result of
reading is determined by the kinds of the tokens (`bare_parseTokens`).

The errors keep their messages, which are about kinds
(`ParseError.message_bare`).
-/

namespace StackScript

/-- The span of a bare node is the same as that of its parts, since merging two
of the same gives nothing new. This is why forgetting spans goes along with
building nodes. -/
@[simp] theorem Span.merge_default : Span.merge default default = default := rfl

/-! ## Programs -/

/-- The name without its span. -/
def Ident.bare (x : Ident) : Ident := ⟨x.name, default⟩

mutual

/-- **The expression without its spans.** -/
def Expr.bare : Expr → Expr
  | .ident name _ => .ident name default
  | .number value _ => .number value default
  | .boolean value _ => .boolean value default
  | .string value _ => .string value default
  | .unary op operand _ => .unary op operand.bare default
  | .binary op left right _ => .binary op left.bare right.bare default
  | .cond test yes no _ => .cond test.bare yes.bare (Block.bareOther no) default
  | .function name params body _ => .function name (params.map Ident.bare) body.bare default
  | .call callee args _ => .call callee.bare (Expr.bareAll args) default
  | .array items _ => .array (Expr.bareAll items) default
  | .index container key _ => .index container.bare key.bare default
  | .map entries _ => .map (Expr.barePairs entries) default

/-- The expressions without their spans. -/
def Expr.bareAll : List Expr → List Expr
  | [] => []
  | e :: rest => e.bare :: Expr.bareAll rest

/-- The keys and values without their spans. -/
def Expr.barePairs : List (Expr × Expr) → List (Expr × Expr)
  | [] => []
  | (key, value) :: rest => (key.bare, value.bare) :: Expr.barePairs rest

/-- The branch that may be missing, without its spans. -/
def Block.bareOther : Option Block → Option Block
  | none => none
  | some block => some block.bare

/-- **The block without its spans.** -/
def Block.bare : Block → Block
  | .mk body _ => .mk (Stmt.bareAll body) default

/-- **The statement without its spans.** -/
def Stmt.bare : Stmt → Stmt
  | .bind name value _ => .bind name.bare value.bare default
  | .ret value _ => .ret value.bare default
  | .expr value _ => .expr value.bare default

/-- The statements without their spans. -/
def Stmt.bareAll : List Stmt → List Stmt
  | [] => []
  | s :: rest => s.bare :: Stmt.bareAll rest

end

/-- The key and the value of an entry without their spans. -/
def Expr.bareEntry (x : Expr × Expr) : Expr × Expr := (x.1.bare, x.2.bare)

/-- The four functions for lists and options are written out for the sake of the
recursion. They are the usual maps, and are spoken of as such from here on. -/
@[simp] theorem Expr.bareAll_eq (es : List Expr) : Expr.bareAll es = es.map Expr.bare := by
  induction es with
  | nil => simp [Expr.bareAll]
  | cons e rest ih => simp [Expr.bareAll, ih]

/-- Keys and values without their spans, entry by entry. -/
@[simp] theorem Expr.barePairs_eq (xs : List (Expr × Expr)) :
    Expr.barePairs xs = xs.map Expr.bareEntry := by
  induction xs with
  | nil => simp [Expr.barePairs]
  | cons x rest ih => simp [Expr.barePairs, Expr.bareEntry, ih]

/-- A branch that is missing has no spans, and one that is there loses its
own. -/
@[simp] theorem Block.bareOther_eq (no : Option Block) :
    Block.bareOther no = no.map Block.bare := by
  cases no <;> simp [Block.bareOther]

/-- Statements without their spans, one by one. -/
@[simp] theorem Stmt.bareAll_eq (ss : List Stmt) : Stmt.bareAll ss = ss.map Stmt.bare := by
  induction ss with
  | nil => simp [Stmt.bareAll]
  | cons s rest ih => simp [Stmt.bareAll, ih]

namespace Expr

/-- A bare expression has the span that all bare things have, so nothing is left
of where it stood. -/
@[simp] theorem span_bare (e : Expr) : e.bare.span = default := by
  cases e <;> simp [bare, span]

/-- Giving an expression another span does not show when spans are forgotten.
Parentheses do this: they widen the span of what they enclose. -/
@[simp] theorem bare_withSpan (e : Expr) (s : Span) : (e.withSpan s).bare = e.bare := by
  cases e <;> simp [bare, withSpan]

/-- A bare expression has that span already, so giving it once more changes
nothing. With `bare_withSpan` this deals with parentheses on both sides. -/
@[simp] theorem withSpan_bare (e : Expr) : e.bare.withSpan default = e.bare := by
  cases e <;> simp [bare, withSpan]

/-- A function literal gets its name from the binding that it is the value of.
Names are not spans, so this can be done before or after. -/
@[simp] theorem bare_named (e : Expr) (name : String) :
    (e.named name).bare = e.bare.named name := by
  cases e <;> simp [bare, named]

end Expr

/-- A bare block has the span that all bare things have. -/
@[simp] theorem Block.span_bare (block : Block) : block.bare.span = default := by
  cases block
  simp [bare, span]

/-! ## Tokens and errors -/

/-- **The token without its span.** -/
def Token.bare (t : Token) : Token := ⟨t.kind, default⟩

/-- A token keeps its kind, and the kind is all that the parser decides by. -/
@[simp] theorem Token.kind_bare (t : Token) : t.bare.kind = t.kind := rfl

/-- What a token loses is its span. -/
@[simp] theorem Token.span_bare (t : Token) : t.bare.span = default := rfl

/-- The error without the span of its token. -/
def ParseError.bare (e : ParseError) : ParseError := ⟨e.expected, e.found.bare⟩

/-- **What an error says does not depend on where it is.** The message is made
from what was expected and from the kind of the token that was found. -/
@[simp] theorem ParseError.message_bare (e : ParseError) : e.bare.message = e.message := rfl

/-! ## What is open -/

namespace Pending

/-- The waiting operator without its spans. -/
def bare : Pending → Pending
  | unary op _ => unary op default
  | binary op left => binary op left.bare

/-- How strongly a waiting operator binds does not depend on where it stands. So
the same operators give way to the next one, with spans or without. -/
@[simp] theorem strength_bare (p : Pending) : p.bare.strength = p.strength := by
  cases p <;> rfl

/-- Applying an operator to its operand merges spans, and bare spans merge to a
bare one. -/
@[simp] theorem bare_apply (p : Pending) (e : Expr) : (p.apply e).bare = p.bare.apply e.bare := by
  cases p <;> simp [apply, bare, Expr.bare]

/-- Settling applies the waiting operators that bind as strongly as the next
one. Bare operators are settled as far as those with spans, and what comes out
is the same but for the spans. -/
theorem bare_settle (strength : Nat) (e : Expr) (pending : List Pending) :
    settle strength e.bare (pending.map bare) =
      ((settle strength e pending).1.bare, (settle strength e pending).2.map bare) := by
  induction pending generalizing e with
  | nil => rfl
  | cons p rest ih =>
    rw [List.map_cons, settle, settle, strength_bare]
    split
    · rw [← bare_apply, ih]
    · rfl

/-- The same where all waiting operators are applied, at the end of an
expression. -/
@[simp] theorem bare_settleAll (e : Expr) (pending : List Pending) :
    (settleAll e pending).bare = settleAll e.bare (pending.map bare) := by
  induction pending generalizing e with
  | nil => rfl
  | cons p rest ih => exact (ih (p.apply e)).trans (by rw [bare_apply]; rfl)

end Pending

/-- The owner of a block without its spans. -/
def Owner.bare : Owner → Owner
  | yes _ test => yes default test.bare
  | no _ test block => no default test.bare block.bare
  | function _ params => function default (params.map Ident.bare)

mutual

/-- The sequence being read without its spans. -/
def Level.bare : Level → Level
  | .program done => .program (done.map Stmt.bare)
  | .block owner _ done outer => .block owner.bare default (done.map Stmt.bare) outer.bare

/-- The construct being read without its spans. -/
def Context.bare : Context → Context
  | .statement level => .statement level.bare
  | .bindValue _ name level => .bindValue default name.bare level.bare
  | .retValue _ level => .retValue default level.bare
  | .group _ outer => .group default outer.bare
  | .argument callee done outer => .argument callee.bare (done.map Expr.bare) outer.bare
  | .lookup container outer => .lookup container.bare outer.bare
  | .item _ done outer => .item default (done.map Expr.bare) outer.bare
  | .key _ done outer => .key default (done.map Expr.bareEntry) outer.bare
  | .value _ done key outer => .value default (done.map Expr.bareEntry) key.bare outer.bare
  | .test _ outer => .test default outer.bare

/-- The place of an operand without its spans. -/
def Place.bare : Place → Place
  | .mk pending context => .mk (pending.map Pending.bare) context.bare

end

/-- An operator that starts to wait can lose its spans before or after. -/
@[simp] theorem Place.bare_push (p : Pending) (place : Place) :
    (place.push p).bare = place.bare.push p.bare := by
  cases place
  simp [push, bare]

/-- So can a statement that joins a sequence. -/
@[simp] theorem Level.bare_push (s : Stmt) (level : Level) :
    (level.push s).bare = level.bare.push s.bare := by
  cases level <;> simp [push, bare]

namespace State

/-- **What has been read, without its spans.** -/
def bare : State → State
  | statement level => statement level.bare
  | bindName _ level => bindName default level.bare
  | bindSign _ name level => bindSign default name.bare level.bare
  | operand place => operand place.bare
  | operator e place => operator e.bare place.bare
  | firstArgument callee place => firstArgument callee.bare place.bare
  | firstItem _ place => firstItem default place.bare
  | entry _ done place => entry default (done.map Expr.bareEntry) place.bare
  | testOpen _ place => testOpen default place.bare
  | yesOpen _ test place => yesOpen default test.bare place.bare
  | yesDone _ test yes place => yesDone default test.bare yes.bare place.bare
  | noOpen _ test yes place => noOpen default test.bare yes.bare place.bare
  | paramsOpen _ place => paramsOpen default place.bare
  | firstParam _ place => firstParam default place.bare
  | param _ done place => param default (done.map Ident.bare) place.bare
  | paramDone _ done place => paramDone default (done.map Ident.bare) place.bare
  | bodyOpen _ params place => bodyOpen default (params.map Ident.bare) place.bare
  | finished program => finished (program.map Stmt.bare)

/-- What a token has led to, without its spans. -/
def bareResult : Except ParseError State → Except ParseError State
  | .ok s => .ok s.bare
  | .error e => .error e.bare

/-- A token that is accepted leads to a state, which loses its spans. -/
@[simp] theorem bareResult_ok (s : State) : bareResult (.ok s) = .ok s.bare := rfl

/-- A token that is not accepted leads to an error, which keeps everything but
the span of the token. -/
@[simp] theorem bareResult_unexpected (expected : Expectation) (t : Token) :
    bareResult (unexpected expected t) = unexpected expected t.bare := rfl

/-! ## Reading a token -/

/-- Where one kind of token has to come, only the kind is looked at. This and
the lemmas that follow go through the functions that `State.step` is made of. -/
@[simp] theorem bare_expect (kind : TokenKind) (t : Token) (next : State) :
    bareResult (expect kind t next) = expect kind t.bare next.bare := by
  unfold expect
  rw [Token.kind_bare]
  split <;> rfl

/-- The first token of an operand decides by its kind what the operand is, and
where the operand begins is all that its span is good for. -/
@[simp] theorem bare_beginOperand (place : Place) (t : Token) :
    bareResult (beginOperand place t) = beginOperand place.bare t.bare := by
  obtain ⟨kind, span⟩ := t
  cases kind <;> simp [beginOperand, Token.bare, bare, Expr.bare, Pending.bare, Place.bare,
    Context.bare]

/-- The end of a block goes back to what the block belongs to. The span that
results runs from the beginning of the owner to the end of the block. -/
theorem bare_endBlock (owner : Owner) (block : Block) (place : Place) :
    (endBlock owner block place).bare = endBlock owner.bare block.bare place.bare := by
  cases owner <;> simp [endBlock, Owner.bare, bare, Expr.bare]

/-- The first token of a statement may end the sequence instead: a brace a
block, and the end of the source a program. Everything else begins an operand,
unless it is one of the two keywords. -/
@[simp] theorem bare_beginStatement (level : Level) (t : Token) :
    bareResult (beginStatement level t) = beginStatement level.bare t.bare := by
  have hoperand : bareResult (beginOperand (.mk [] (.statement level)) t) =
      beginOperand (.mk [] (.statement level.bare)) t.bare := by
    simp [Place.bare, Context.bare]
  obtain ⟨kind, span⟩ := t
  cases kind with
  | letWord | returnWord => simp [beginStatement, Token.bare, bare, Place.bare, Context.bare]
  | braceClose =>
    cases level with
    | program done => exact hoperand
    | block owner brace done outer =>
      simp [beginStatement, Token.bare, bare_endBlock, Level.bare, Block.bare]
  | eof => cases level <;> simp [beginStatement, Token.bare, bare, Level.bare]
  | _ => exact hoperand

/-- After a statement a semicolon may come, or the next statement at once. -/
@[simp] theorem bare_endStatement (level : Level) (t : Token) :
    bareResult (endStatement level t) = endStatement level.bare t.bare := by
  unfold endStatement
  rw [Token.kind_bare]
  split
  · rfl
  · exact bare_beginStatement level t

/-- The token after an expression has to fit what the expression is read for.
Lists go on at a comma, and everything else is closed here. -/
@[simp] theorem bare_close (e : Expr) (context : Context) (t : Token) :
    bareResult (close e context t) = close e.bare context.bare t.bare := by
  cases context with
  | statement | bindValue | retValue => simp [close, Context.bare, Stmt.bare, Ident.bare]
  | group | lookup | key | test =>
    simp [close, Context.bare, bare, Place.bare, Expr.bare]
  | argument | item =>
    by_cases hcomma : t.kind = .comma <;>
      simp [close, hcomma, Context.bare, bare, Place.bare, Expr.bare]
  | value =>
    by_cases hclose : t.kind = .braceClose <;>
      simp [close, hclose, Context.bare, bare, Expr.bare, Expr.bareEntry]

/-- The token after an operand is an operator, or it closes the expression. In
both cases waiting operators are settled first, by their strength. -/
@[simp] theorem bare_afterOperand (e : Expr) (place : Place) (t : Token) :
    bareResult (afterOperand e place t) = afterOperand e.bare place.bare t.bare := by
  obtain ⟨pending, context⟩ := place
  unfold afterOperand
  simp only [Place.bare, Token.kind_bare]
  cases t.kind.extension? with
  | none => simp
  | some extension =>
    dsimp only
    rw [Pending.bare_settle]
    cases extension <;> simp [bare, Place.bare, Context.bare, Pending.bare]

/-- Where a name has to come, the token of the name is turned into an
identifier. The two ways to go on have to agree but for spans. -/
@[simp] theorem bare_readName {next next' : Ident → State} (t : Token)
    (h : ∀ x, (next x).bare = next' x.bare) :
    bareResult (readName t next) = readName t.bare next' := by
  obtain ⟨kind, span⟩ := t
  cases kind with
  | identifier name => exact congrArg Except.ok (h ⟨name, span⟩)
  | _ => rfl

/-- **What a token does to what has been read does not depend on spans.** There
is one case for each kind of state, and each of them is one of the functions
above. -/
theorem bare_step (s : State) (t : Token) : bareResult (s.step t) = s.bare.step t.bare := by
  cases s with
  | statement | operand | operator => simp [step, bare]
  | bindName | param =>
    simp only [step, bare]
    exact bare_readName t fun _ => rfl
  | bindSign | testOpen | paramsOpen => simp [step, bare, Place.bare, Context.bare]
  | yesOpen | noOpen | bodyOpen => simp [step, bare, Level.bare, Owner.bare]
  | firstArgument =>
    by_cases hclose : t.kind = .parenClose <;>
      simp [step, hclose, bare, Expr.bare, Place.bare, Context.bare]
  | firstItem =>
    by_cases hclose : t.kind = .bracketClose <;>
      simp [step, hclose, bare, Expr.bare, Place.bare, Context.bare]
  | entry =>
    by_cases hclose : t.kind = .braceClose <;>
      simp [step, hclose, bare, Expr.bare, Place.bare, Context.bare]
  | yesDone => by_cases helse : t.kind = .elseWord <;> simp [step, helse, bare, Expr.bare]
  | paramDone => by_cases hcomma : t.kind = .comma <;> simp [step, hcomma, bare]
  | firstParam =>
    by_cases hclose : t.kind = .parenClose
    · simp [step, hclose, bare]
    · rw [bare, step, step, if_neg hclose, if_neg (show t.bare.kind ≠ .parenClose from hclose)]
      exact bare_readName t fun _ => rfl
  | finished => rfl

end State

/-! ## Reading programs -/

namespace Reading

/-- How far the reading has come, without the spans. -/
def bare (r : Reading) : Reading := ⟨r.state.map State.bare, r.errors.map ParseError.bare⟩

/-- After an error the parser skips tokens up to a semicolon. It looks at their
kinds only. -/
theorem bare_resume (t : Token) : (resume t).map State.bare = resume t.bare := by
  unfold resume
  rw [Token.kind_bare]
  split <;> rfl

/-- One token, with or without an error before it: forgetting spans goes along
with it. -/
theorem bare_feed (r : Reading) (t : Token) : (r.feed t).bare = r.bare.feed t.bare := by
  obtain ⟨state, errors⟩ := r
  cases state with
  | none => simp [feed, bare, bare_resume]
  | some s =>
    have hstep := State.bare_step s t
    simp only [feed, bare, Option.map_some]
    rw [← hstep]
    cases s.step t <;> simp [State.bareResult, bare_resume]

/-- Nothing has been read at the beginning, so there are no spans to forget. -/
theorem bare_start : start.bare = start := by
  simp [bare, start, State.initial, State.bare, Level.bare]

/-- All tokens, one after the other: what holds for one of them (`bare_feed`)
holds for the whole source. -/
theorem bare_foldl (ts : List Token) (r : Reading) :
    (ts.foldl feed r).bare = (ts.map Token.bare).foldl feed r.bare := by
  induction ts generalizing r with
  | nil => rfl
  | cons t rest ih => rw [List.foldl_cons, ih, bare_feed, List.map_cons, List.foldl_cons]

/-- The result of reading without its spans. -/
def bareResult : Except (List ParseError) (List Stmt) → Except (List ParseError) (List Stmt)
  | .ok program => .ok (program.map Stmt.bare)
  | .error errors => .error (errors.map ParseError.bare)

/-- What comes out is a program if there were no errors, and the errors
otherwise. Forgetting spans does not remove or add any error. -/
theorem bare_result (r : Reading) : bareResult r.result = r.bare.result := by
  obtain ⟨state, errors⟩ := r
  simp only [result, bare, Array.toList_map]
  cases errors.toList with
  | cons e rest => rfl
  | nil =>
    cases state with
    | none => rfl
    | some s => cases s <;> rfl

end Reading

/-- **What is read without its spans is what bare tokens spell.** Since bare
tokens are kinds, two sources with the same kinds of tokens are read as the same
program but for spans, or have the same errors. -/
theorem bare_parseTokens (ts : List Token) :
    Reading.bareResult (parseTokens ts) = parseTokens (ts.map Token.bare) := by
  unfold parseTokens
  rw [Reading.bare_result, Reading.bare_foldl, Reading.bare_start]

end StackScript
