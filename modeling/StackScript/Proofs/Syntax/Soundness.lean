import StackScript.Proofs.Syntax.Grammar

/-!
# What has been read is rendered by the tokens

A state of the reader is a stack of constructs that are still open, and each of
them has its tokens: those of what is complete in it, up to where the construct
inside of it begins. `State.Read` says how the tokens read so far are split
among the constructs, and that those of each complete part are a rendering of
it. A token keeps this (`State.Read.step`), and a program that has been read to
its end is one that the tokens render.

## Operators

The operators that wait for their right operands stand in the order of their
strengths: each wants an operand that binds more tightly than the one below it
(`Waiting`). An operand completes those of them that bind at least as tightly as
what follows, and the result is of the stratum of what follows
(`Waiting.settle`).

## Statements without a semicolon

A statement ends when a token comes that does not extend it. That token is the
first of the next statement, so a place where an operand is wanted is described
together with the first token of the operand (`Place.Read`): if the place is a
statement of its own after one that no semicolon has ended, then that token must
not continue an expression.
-/

namespace StackScript

theorem BinaryOp.strength_eq (op : BinaryOp) : op.strength = op.stratum := by cases op <;> rfl

theorem BinaryOp.stratum_pos (op : BinaryOp) : 1 ≤ op.stratum := by cases op <;> decide

theorem BinaryOp.stratum_le (op : BinaryOp) : op.stratum ≤ 4 := by cases op <;> decide

/-- What could go on with an expression. -/
theorem TokenKind.cases_of_continues {k : TokenKind} (h : k.continues = true) :
    (∃ op : BinaryOp, k = op.kind) ∨ k = .parenOpen ∨ k = .bracketOpen := by
  cases k with
  | plus => exact .inl ⟨.add, rfl⟩
  | minus => exact .inl ⟨.sub, rfl⟩
  | star => exact .inl ⟨.mul, rfl⟩
  | slash => exact .inl ⟨.div, rfl⟩
  | less => exact .inl ⟨.less, rfl⟩
  | greater => exact .inl ⟨.greater, rfl⟩
  | equal => exact .inl ⟨.equal, rfl⟩
  | notEqual => exact .inl ⟨.notEqual, rfl⟩
  | parenOpen => exact .inr (.inl rfl)
  | bracketOpen => exact .inr (.inr rfl)
  | _ => cases h

/-! ## Items with commas -/

/-- **Items that are each followed by a comma**, the newest first. -/
inductive Listed {α : Type} (P : List TokenKind → α → Prop) : List TokenKind → List α → Prop where
  | nil : Listed P [] []
  | snoc {ks ks' : List TokenKind} {xs : List α} {x : α} : Listed P ks xs → P ks' x →
      Listed P (ks ++ (ks' ++ [.comma])) (x :: xs)

/-- More items go before a list that can be extended at its front. -/
theorem Listed.append {α : Type} {P : List TokenKind → α → Prop}
    {Q : List TokenKind → List α → Prop}
    (hcons : ∀ ks x ks' xs, P ks x → Q ks' xs → Q (ks ++ .comma :: ks') (x :: xs))
    {ks ks' : List TokenKind} {xs xs' : List α} (h : Listed P ks xs) (hrest : Q ks' xs') :
    Q (ks ++ ks') (xs.reverse ++ xs') := by
  induction h generalizing ks' xs' with
  | nil => exact hrest
  | snoc _ hx ih => simpa using ih (hcons _ _ _ _ hx hrest)

/-- The rendering of an item of a list. -/
def ItemRead (ks : List TokenKind) (e : Expr) : Prop := Spells ks (.expr 1 e)

/-- The rendering of an entry of a map. -/
def EntryRead (ks : List TokenKind) (x : Expr × Expr) : Prop :=
  ∃ ks₁ ks₂, ks = ks₁ ++ .colon :: ks₂ ∧ Spells ks₁ (.expr 1 x.1) ∧ Spells ks₂ (.expr 1 x.2)

/-- The rendering of a parameter. -/
def ParamRead (ks : List TokenKind) (x : Ident) : Prop := ks = [.identifier x.name]

section

variable {ks ks' : List TokenKind}

theorem Listed.exprs {done : List Expr} {e : Expr} (h : Listed ItemRead ks done)
    (he : Spells ks' (.expr 1 e)) : Spells (ks ++ ks') (.exprs (e :: done).reverse) := by
  have hone : [e] ≠ [] ∧ Spells ks' (.exprs [e]) := ⟨by simp, .exprsOne he⟩
  have hall := h.append (Q := fun ks es => es ≠ [] ∧ Spells ks (.exprs es)) ?_ hone
  · simpa using hall.2
  · rintro ks x ks' (_ | ⟨x', xs⟩) hx ⟨hne, hxs⟩
    · exact (hne rfl).elim
    · exact ⟨by simp, .exprsCons hx hxs⟩

theorem Listed.entries {done xs : List (Expr × Expr)} (h : Listed EntryRead ks done)
    (hxs : Spells ks' (.entries xs)) : Spells (ks ++ ks') (.entries (done.reverse ++ xs)) := by
  refine h.append (Q := fun ks xs => Spells ks (.entries xs)) ?_ hxs
  rintro _ ⟨key, value⟩ ks' xs ⟨ks₁, ks₂, rfl, hkey, hvalue⟩ hxs
  simpa using Spells.entriesCons hkey hvalue hxs

theorem Listed.params {done : List Ident} {x : Ident} (h : Listed ParamRead ks done) :
    Spells (ks ++ [.identifier x.name]) (.params (x :: done).reverse) := by
  have hone : [x] ≠ [] ∧ Spells [.identifier x.name] (.params [x]) := ⟨by simp, .paramsOne⟩
  have hall := h.append (Q := fun ks xs => xs ≠ [] ∧ Spells ks (.params xs)) ?_ hone
  · simpa using hall.2
  · rintro _ x ks' (_ | ⟨x', xs⟩) rfl ⟨hne, hxs⟩
    · exact (hne rfl).elim
    · exact ⟨by simp, .paramsCons hxs⟩

end

/-! ## Operators that wait -/

namespace Pending

/-- The stratum of the operand that an operator waits for. -/
def need : Pending → Nat
  | unary .. => 5
  | binary op _ => op.stratum + 1

theorem strength_pos (p : Pending) : 1 ≤ p.strength := by
  cases p with
  | unary => exact Nat.succ_pos 4
  | binary op =>
    rw [strength, op.strength_eq]
    exact op.stratum_pos

theorem strength_le (p : Pending) : p.strength ≤ 5 := by
  cases p with
  | unary => exact Nat.le_refl 5
  | binary op =>
    rw [strength, op.strength_eq]
    exact Nat.le_succ_of_le op.stratum_le

theorem need_le (p : Pending) : p.need ≤ 5 := by
  cases p with
  | unary => exact Nat.le_refl 5
  | binary op => exact Nat.succ_le_succ op.stratum_le

theorem need_le_of_strength_lt {p : Pending} {n : Nat} (h : p.strength < n) : p.need ≤ n := by
  cases p with
  | unary => exact Nat.le_of_lt h
  | binary op =>
    rw [strength, BinaryOp.strength_eq] at h
    exact h

/-- What binds more tightly than all operators completes none. -/
theorem settle_of_lt {n : Nat} (h : 5 < n) (e : Expr) (pending : List Pending) :
    settle n e pending = (e, pending) := by
  cases pending with
  | nil => rfl
  | cons p rest =>
    have hp := p.strength_le
    rw [settle, if_neg (by omega)]

/-- What binds as loosely as the loosest operators completes all. -/
theorem settle_one (e : Expr) (pending : List Pending) :
    settle 1 e pending = (settleAll e pending, []) := by
  induction pending generalizing e with
  | nil => rfl
  | cons p rest ih =>
    rw [settle, if_pos p.strength_pos, ih]
    rfl

end Pending

/-! ## Tokens after an operand -/

namespace State

variable {e : Expr} {t : Token} (pending : List Pending) (context : Context) (place : Place)

/-- An operator completes those that bind at least as tightly. -/
theorem afterOperand_binary {op : BinaryOp} (h : t.kind = op.kind) :
    afterOperand e (.mk pending context) t =
      .ok (.operand (.mk (.binary op (Pending.settle op.stratum e pending).1 ::
        (Pending.settle op.stratum e pending).2) context)) := by
  have hextension : t.kind.extension? = some (.binary op) := by
    rw [h]
    cases op <;> rfl
  unfold afterOperand
  rw [hextension]
  simp [Extension.strength, op.strength_eq, Place.push]

/-- A call completes none. -/
theorem afterOperand_call (h : t.kind = .parenOpen) :
    afterOperand e place t = .ok (.firstArgument e place) := by
  obtain ⟨pending, context⟩ := place
  unfold afterOperand
  rw [h]
  simp [TokenKind.extension?, Extension.strength, Pending.settle_of_lt]

/-- A look-up completes none. -/
theorem afterOperand_index (h : t.kind = .bracketOpen) :
    afterOperand e place t = .ok (.operand (.mk [] (.lookup e place))) := by
  obtain ⟨pending, context⟩ := place
  unfold afterOperand
  rw [h]
  simp [TokenKind.extension?, Extension.strength, Pending.settle_of_lt]

/-- What ends an expression completes all. -/
theorem afterOperand_close (h : t.kind.continues = false) :
    afterOperand e (.mk pending context) t = close (Pending.settleAll e pending) context t := by
  have hextension : t.kind.extension? = none := by
    cases hkind : t.kind <;> simp_all [TokenKind.extension?, TokenKind.continues]
  unfold afterOperand
  rw [hextension]

end State

/-! ## The tokens of waiting operators -/

/-- **The tokens of the operators that wait**, the newest first. What an
operator makes will be the operand of the one below it, and is tight enough for
it. -/
inductive Waiting : List TokenKind → List Pending → Prop where
  | nil : Waiting [] []
  | unary {ks : List TokenKind} {pending : List Pending} {op : UnaryOp} {start : Span} :
      Waiting ks pending → Waiting (ks ++ [op.kind]) (.unary op start :: pending)
  | binary {ks ks' : List TokenKind} {pending : List Pending} {op : BinaryOp} {left : Expr} :
      Waiting ks pending → (∀ p ∈ pending.head?, p.need ≤ op.stratum) →
      Spells ks' (.expr op.stratum left) →
      Waiting (ks ++ (ks' ++ [op.kind])) (.binary op left :: pending)

/-- **An operand completes operators**: the result is of the stratum of what
follows, and the operators that go on waiting want nothing tighter. -/
theorem Waiting.settle {ks es : List TokenKind} {pending : List Pending} {e : Expr} {n s : Nat}
    (h : Waiting ks pending) (he : Spells es (.expr n e)) (hneed : ∀ p ∈ pending.head?, p.need ≤ n)
    (hs : s ≤ n) :
    ∃ ks' es', ks ++ es = ks' ++ es' ∧ Waiting ks' (Pending.settle s e pending).2 ∧
      Spells es' (.expr s (Pending.settle s e pending).1) ∧
      ∀ p ∈ (Pending.settle s e pending).2.head?, p.need ≤ s := by
  induction h generalizing es e n with
  | nil => exact ⟨[], es, rfl, .nil, he.weaken hs, by simp [Pending.settle]⟩
  | @unary ks pending op start h ih =>
    rw [Pending.settle]
    split
    · next hle =>
      -- The operator binds at least as tightly as the one to come: what has
      -- been read is its operand.
      have hoperand : Spells es (.expr 5 e) := he.weaken (hneed _ rfl)
      obtain ⟨ks', es', heq, hrest⟩ := ih (e := Pending.apply e (.unary op start)) (.unary hoperand)
        (fun p _ => p.need_le) hle
      exact ⟨ks', es', by simpa using heq, hrest⟩
    · next hlt =>
      refine ⟨_, es, rfl, .unary h, he.weaken hs, fun p hp => ?_⟩
      cases hp
      exact Pending.need_le_of_strength_lt (Nat.lt_of_not_le hlt)
  | @binary ks ks' pending op left h hbelow hleft ih =>
    rw [Pending.settle]
    split
    · next hle =>
      rw [Pending.strength, BinaryOp.strength_eq] at hle
      -- An operator of the same stratum is completed too, which groups to the
      -- left.
      have hoperand : Spells es (.expr (op.stratum + 1) e) := he.weaken (hneed _ rfl)
      obtain ⟨ks'', es', heq, hrest⟩ := ih (e := Pending.apply e (.binary op left))
        (.binary hleft hoperand) hbelow hle
      exact ⟨ks'', es', by simpa using heq, hrest⟩
    · next hlt =>
      refine ⟨_, es, rfl, .binary h hbelow hleft, he.weaken hs, fun p hp => ?_⟩
      cases hp
      exact Pending.need_le_of_strength_lt (Nat.lt_of_not_le hlt)

/-! ## Statements -/

/-- **The tokens of statements that are complete**, the newest first, and
whether the newest has its semicolon, so that any token may follow. -/
inductive Sequence : List TokenKind → List Stmt → Bool → Prop where
  | nil : Sequence [] [] true
  | join {ks es : List TokenKind} {k : TokenKind} {done : List Stmt} {s : Stmt} {free : Bool} :
      Sequence ks done free → (free = false → k.continues = false) → Spells (k :: es) (.stmt s) →
      Sequence (ks ++ k :: es) (s :: done) false
  | ended {ks es : List TokenKind} {k : TokenKind} {done : List Stmt} {s : Stmt} {free : Bool} :
      Sequence ks done free → (free = false → k.continues = false) → Spells (k :: es) (.stmt s) →
      Sequence (ks ++ (k :: es ++ [.semicolon])) (s :: done) true

namespace Sequence

variable {ks ks' : List TokenKind} {done more : List Stmt} {free : Bool}

/-- A semicolon ends the newest statement. -/
theorem semicolon {s : Stmt} (h : Sequence ks (s :: done) false) :
    Sequence (ks ++ [.semicolon]) (s :: done) true := by
  cases h with
  | join h hk hs => simpa using h.ended hk hs

/-- More statements follow. -/
theorem append (h : Sequence ks done free) (hmore : Spells ks' (.stmts more))
    (hks' : free = false → ∀ k ∈ ks'.head?, k.continues = false) :
    Spells (ks ++ ks') (.stmts (done.reverse ++ more)) := by
  induction h generalizing ks' more with
  | nil => exact hmore
  | @join ks es k done s free h hk hs ih =>
    have hjoin := ih (.stmtsJoin hs hmore (hks' rfl)) fun hfree k' hk' => by
      cases hk'
      exact hk hfree
    simpa using hjoin
  | @ended ks es k done s free h hk hs ih =>
    have hended := ih (.stmtsCons hs hmore) fun hfree k' hk' => by
      cases hk'
      exact hk hfree
    simpa using hended

/-- The statements are complete. -/
theorem stmts (h : Sequence ks done free) : Spells ks (.stmts done.reverse) := by
  simpa using h.append .stmtsNil (by simp)

end Sequence

/-! ## What is open -/

/-- The tokens before the block of an owner. -/
def Owner.Heads (hs : List TokenKind) : Owner → Prop
  | .yes _ test => ∃ ts, hs = .ifWord :: .parenOpen :: (ts ++ [.parenClose]) ∧
      Spells ts (.expr 1 test)
  | .no _ test block => ∃ ts bs,
      hs = .ifWord :: .parenOpen :: (ts ++ .parenClose :: (bs ++ [.elseWord])) ∧
      Spells ts (.expr 1 test) ∧ Spells bs (.block block)
  | .function _ params => ∃ ps, hs = .fnWord :: .parenOpen :: (ps ++ [.parenClose]) ∧
      Spells ps (.params params)

/-- The word that an owner begins with. -/
def Owner.word : Owner → TokenKind
  | .yes .. | .no .. => .ifWord
  | .function .. => .fnWord

mutual

/-- **The tokens that led to a sequence of statements**, and whether any token
may follow. -/
def Level.Read : Level → List TokenKind → Bool → Prop
  | .program done, ks, free => Sequence ks done free
  | .block owner _ done outer, ks, free => ∃ ks' hs bs, ks = ks' ++ (hs ++ .braceOpen :: bs) ∧
      owner.Heads hs ∧ Sequence bs done free ∧ outer.Read ks' owner.word

/-- **The tokens that led to a construct**, and the first token of the
expression it waits for. -/
def Context.Read : Context → List TokenKind → TokenKind → Prop
  | .statement level, ks, k => ∃ free, level.Read ks free ∧ (free = false → k.continues = false)
  | .bindValue _ name level, ks, _ => ∃ ks' free,
      ks = ks' ++ [.letWord, .identifier name.name, .assign] ∧ level.Read ks' free
  | .retValue _ level, ks, _ => ∃ ks' free, ks = ks' ++ [.returnWord] ∧ level.Read ks' free
  | .group _ outer, ks, _ => ∃ ks', ks = ks' ++ [.parenOpen] ∧ outer.Read ks' .parenOpen
  | .argument callee done outer, ks, _ => ∃ ks' k fs es,
      ks = ks' ++ (k :: fs ++ .parenOpen :: es) ∧ Spells (k :: fs) (.expr 6 callee) ∧
      Listed ItemRead es done ∧ outer.Read ks' k
  | .lookup container outer, ks, _ => ∃ ks' k fs, ks = ks' ++ (k :: fs ++ [.bracketOpen]) ∧
      Spells (k :: fs) (.expr 6 container) ∧ outer.Read ks' k
  | .item _ done outer, ks, _ => ∃ ks' es, ks = ks' ++ .bracketOpen :: es ∧
      Listed ItemRead es done ∧ outer.Read ks' .bracketOpen
  | .key _ done outer, ks, _ => ∃ ks' es, ks = ks' ++ .braceOpen :: es ∧
      Listed EntryRead es done ∧ outer.Read ks' .braceOpen
  | .value _ done key outer, ks, _ => ∃ ks' es ts,
      ks = ks' ++ .braceOpen :: (es ++ (ts ++ [.colon])) ∧ Listed EntryRead es done ∧
      Spells ts (.expr 1 key) ∧ outer.Read ks' .braceOpen
  | .test _ outer, ks, _ => ∃ ks', ks = ks' ++ [.ifWord, .parenOpen] ∧ outer.Read ks' .ifWord

/-- **The tokens that led to a place**, and the first token of the operand that
is wanted there. -/
def Place.Read : Place → List TokenKind → TokenKind → Prop
  | .mk pending context, ks, k => ∃ ks₁ ks₂, ks = ks₁ ++ ks₂ ∧ Waiting ks₂ pending ∧
      context.Read ks₁ (ks₂.head?.getD k)

end

/-- **The tokens that led to a state.** -/
def State.Read (ks : List TokenKind) : State → Prop
  | statement level => level.Read ks true
  | bindName _ level => ∃ ks' free, ks = ks' ++ [.letWord] ∧ level.Read ks' free
  | bindSign _ name level => ∃ ks' free, ks = ks' ++ [.letWord, .identifier name.name] ∧
      level.Read ks' free
  | operand place => ∀ k, place.Read ks k
  | operator e place => ∃ ks' k es, ks = ks' ++ k :: es ∧ Spells (k :: es) (.expr 6 e) ∧
      place.Read ks' k
  | firstArgument callee place => ∃ ks' k es, ks = ks' ++ (k :: es ++ [.parenOpen]) ∧
      Spells (k :: es) (.expr 6 callee) ∧ place.Read ks' k
  | firstItem _ place => ∃ ks', ks = ks' ++ [.bracketOpen] ∧ place.Read ks' .bracketOpen
  | entry _ done place => ∃ ks' es, ks = ks' ++ .braceOpen :: es ∧ Listed EntryRead es done ∧
      place.Read ks' .braceOpen
  | testOpen _ place => ∃ ks', ks = ks' ++ [.ifWord] ∧ place.Read ks' .ifWord
  | yesOpen start test place => ∃ ks' hs, ks = ks' ++ hs ∧ (Owner.yes start test).Heads hs ∧
      place.Read ks' .ifWord
  | yesDone start test yes place => ∃ ks' hs bs, ks = ks' ++ (hs ++ bs) ∧
      (Owner.yes start test).Heads hs ∧ Spells bs (.block yes) ∧ place.Read ks' .ifWord
  | noOpen start test yes place => ∃ ks' hs, ks = ks' ++ hs ∧ (Owner.no start test yes).Heads hs ∧
      place.Read ks' .ifWord
  | paramsOpen _ place => ∃ ks', ks = ks' ++ [.fnWord] ∧ place.Read ks' .fnWord
  | firstParam _ place => ∃ ks', ks = ks' ++ [.fnWord, .parenOpen] ∧ place.Read ks' .fnWord
  | param _ done place => ∃ ks' ps, ks = ks' ++ .fnWord :: .parenOpen :: ps ∧
      Listed ParamRead ps done ∧ place.Read ks' .fnWord
  | paramDone _ done place => ∃ ks' ps x rest,
      ks = ks' ++ .fnWord :: .parenOpen :: (ps ++ [.identifier x.name]) ∧ done = x :: rest ∧
      Listed ParamRead ps rest ∧ place.Read ks' .fnWord
  | bodyOpen start params place => ∃ ks' hs, ks = ks' ++ hs ∧
      (Owner.function start params).Heads hs ∧ place.Read ks' .fnWord
  | finished program => ∃ ks', ks = ks' ++ [.eof] ∧ Spells ks' (.stmts program)

/-! ## Steps -/

section

variable {ks es : List TokenKind} {k : TokenKind} {free : Bool} {level : Level} {place : Place}
  {e : Expr} {t : Token} {next : State}

/-- A statement has been read. -/
theorem Level.Read.push (h : level.Read ks free) (hk : free = false → k.continues = false)
    {s : Stmt} (hs : Spells (k :: es) (.stmt s)) : (level.push s).Read (ks ++ k :: es) false := by
  cases level with
  | program done => exact Sequence.join h hk hs
  | block owner brace done outer =>
    obtain ⟨ks', heads, bs, rfl, hheads, hdone, houter⟩ := h
    exact ⟨ks', heads, _, by simp, hheads, hdone.join hk hs, houter⟩

theorem Level.Read.semicolon {s : Stmt} (h : (level.push s).Read ks false) :
    (level.push s).Read (ks ++ [.semicolon]) true := by
  cases level with
  | program done => exact Sequence.semicolon h
  | block owner brace done outer =>
    obtain ⟨ks', heads, bs, rfl, hheads, hdone, houter⟩ := h
    exact ⟨ks', heads, _, by simp, hheads, hdone.semicolon, houter⟩

theorem Place.Read.unary {op : UnaryOp} (h : place.Read ks op.kind) (start : Span) (k : TokenKind) :
    (place.push (.unary op start)).Read (ks ++ [op.kind]) k := by
  obtain ⟨pending, context⟩ := place
  obtain ⟨ks₁, ks₂, rfl, hpending, hcontext⟩ := h
  refine ⟨ks₁, ks₂ ++ [op.kind], by simp, .unary hpending, ?_⟩
  cases ks₂ <;> exact hcontext

/-- A place that no operator waits at. -/
theorem Context.Read.alone {context : Context} (h : context.Read ks k) :
    (Place.mk [] context).Read ks k := ⟨ks, [], by simp, .nil, h⟩

namespace State

/-- **A token where an operand is wanted.** -/
theorem read_beginOperand (h : place.Read ks t.kind) (hnext : beginOperand place t = .ok next) :
    next.Read (ks ++ [t.kind]) := by
  obtain ⟨kind, span⟩ := t
  have hoperator : ∀ {e : Expr},
      Spells [kind] (.expr 7 e) → (operator e place).Read (ks ++ [kind]) :=
    fun he => ⟨ks, kind, [], rfl, he.tighter, h⟩
  cases kind with
  | identifier | number | string =>
    cases hnext
    first | exact hoperator .ident | exact hoperator .number | exact hoperator .string
  | trueWord =>
    cases hnext
    exact hoperator (@Spells.boolean true span)
  | falseWord =>
    cases hnext
    exact hoperator (@Spells.boolean false span)
  | bang =>
    cases hnext
    have hnot : place.Read ks (UnaryOp.kind .not) := h
    exact hnot.unary span
  | minus =>
    cases hnext
    have hnegate : place.Read ks (UnaryOp.kind .negate) := h
    exact hnegate.unary span
  | parenOpen =>
    cases hnext
    exact fun k => Context.Read.alone ⟨ks, rfl, h⟩
  | ifWord | fnWord | bracketOpen =>
    cases hnext
    exact ⟨ks, rfl, h⟩
  | braceOpen =>
    cases hnext
    exact ⟨ks, [], rfl, .nil, h⟩
  | _ => cases hnext

/-- The end of a block. -/
theorem read_endBlock {owner : Owner} {block : Block} {heads bs : List TokenKind}
    (hheads : owner.Heads heads) (hblock : Spells bs (.block block))
    (h : place.Read ks owner.word) :
    (endBlock owner block place).Read (ks ++ (heads ++ bs)) := by
  cases owner with
  | yes => exact ⟨ks, heads, bs, rfl, hheads, hblock, h⟩
  | no =>
    obtain ⟨ts, bs', rfl, htest, hyes⟩ := hheads
    exact ⟨ks, _, _, by simp, (Spells.condElse htest hyes hblock).tighter, h⟩
  | function =>
    obtain ⟨ps, rfl, hparams⟩ := hheads
    exact ⟨ks, _, _, by simp, (Spells.function hparams hblock).tighter, h⟩

/-- **A token where a statement may begin.** -/
theorem read_beginStatement (h : level.Read ks free) (ht : free = false → t.kind.continues = false)
    (hnext : beginStatement level t = .ok next) : next.Read (ks ++ [t.kind]) := by
  have hstatement : (Place.mk [] (.statement level)).Read ks t.kind :=
    Context.Read.alone ⟨free, h, ht⟩
  obtain ⟨kind, span⟩ := t
  cases kind with
  | letWord =>
    cases hnext
    exact ⟨ks, free, rfl, h⟩
  | returnWord =>
    cases hnext
    exact fun k => Context.Read.alone ⟨ks, free, rfl, h⟩
  | braceClose =>
    cases level with
    | program => exact read_beginOperand hstatement hnext
    | block owner brace done outer =>
      cases hnext
      obtain ⟨ks', heads, bs, rfl, hheads, hdone, houter⟩ := h
      simpa using read_endBlock hheads (.block hdone.stmts) houter
  | eof =>
    cases level with
    | program =>
      cases hnext
      exact ⟨ks, rfl, Sequence.stmts h⟩
    | block => cases hnext
  | _ => exact read_beginOperand hstatement hnext

/-- **A token after a statement.** -/
theorem read_endStatement {s : Stmt} (h : (level.push s).Read ks false)
    (ht : t.kind.continues = false) (hnext : endStatement (level.push s) t = .ok next) :
    next.Read (ks ++ [t.kind]) := by
  unfold endStatement at hnext
  split at hnext
  · next hkind =>
    cases hnext
    rw [hkind]
    exact h.semicolon
  · exact read_beginStatement h (fun _ => ht) hnext

theorem eq_of_expect {kind : TokenKind} {s : State} (h : expect kind t s = .ok next) :
    t.kind = kind ∧ next = s := by
  unfold expect at h
  split at h
  · next hkind =>
    cases h
    exact ⟨hkind, rfl⟩
  · cases h

/-- **A token that ends an expression.** -/
theorem read_close {context : Context} (h : context.Read ks k) (he : Spells (k :: es) (.expr 1 e))
    (ht : t.kind.continues = false) (hnext : close e context t = .ok next) :
    next.Read (ks ++ (k :: es ++ [t.kind])) := by
  cases context with
  | statement level =>
    obtain ⟨free, hlevel, hk⟩ := h
    simpa using read_endStatement (hlevel.push hk (.expr he)) ht hnext
  | bindValue start name level =>
    obtain ⟨ks', free, rfl, hlevel⟩ := h
    simpa using read_endStatement (hlevel.push (fun _ => rfl) (.bind he)) ht hnext
  | retValue start level =>
    obtain ⟨ks', free, rfl, hlevel⟩ := h
    simpa using read_endStatement (hlevel.push (fun _ => rfl) (.ret he)) ht hnext
  | group start outer =>
    obtain ⟨ks', rfl, houter⟩ := h
    obtain ⟨hkind, rfl⟩ := eq_of_expect hnext
    exact ⟨ks', _, _, by simp [hkind], (Spells.group he).tighter, houter⟩
  | argument callee done outer =>
    obtain ⟨ks', k', fs, as, rfl, hcallee, hdone, houter⟩ := h
    rw [close] at hnext
    split at hnext
    · next hkind =>
      cases hnext
      exact fun _ => Context.Read.alone
        ⟨ks', k', fs, _, by simp [hkind], hcallee, hdone.snoc he, houter⟩
    · obtain ⟨hkind, rfl⟩ := eq_of_expect hnext
      refine ⟨ks', k', _, ?_, Spells.call hcallee (hdone.exprs he), houter⟩
      simp [hkind]
  | lookup container outer =>
    obtain ⟨ks', k', fs, rfl, hcontainer, houter⟩ := h
    obtain ⟨hkind, rfl⟩ := eq_of_expect hnext
    refine ⟨ks', k', _, ?_, Spells.index hcontainer he, houter⟩
    simp [hkind]
  | item start done outer =>
    obtain ⟨ks', as, rfl, hdone, houter⟩ := h
    rw [close] at hnext
    split at hnext
    · next hkind =>
      cases hnext
      exact fun _ => Context.Read.alone ⟨ks', _, by simp [hkind], hdone.snoc he, houter⟩
    · obtain ⟨hkind, rfl⟩ := eq_of_expect hnext
      exact ⟨ks', _, _, by simp [hkind], (Spells.array (hdone.exprs he)).tighter, houter⟩
  | key start done outer =>
    obtain ⟨ks', as, rfl, hdone, houter⟩ := h
    obtain ⟨hkind, rfl⟩ := eq_of_expect hnext
    exact fun _ => Context.Read.alone ⟨ks', as, _, by simp [hkind], hdone, he, houter⟩
  | value start done key outer =>
    obtain ⟨ks', as, ts, rfl, hdone, hkey, houter⟩ := h
    rw [close] at hnext
    split at hnext
    · next hkind =>
      cases hnext
      -- No comma has been read after this entry, so it is the last one.
      have hentries :
          Spells (as ++ (ts ++ .colon :: k :: es)) (.entries ((key, e) :: done).reverse) := by
        simpa using hdone.entries (.entriesOne hkey he)
      exact ⟨ks', _, _, by simp [hkind], (Spells.map hentries).tighter, houter⟩
    · obtain ⟨hkind, rfl⟩ := eq_of_expect hnext
      exact ⟨ks', _, by simp [hkind], hdone.snoc ⟨ts, k :: es, rfl, hkey, he⟩, houter⟩
  | test start outer =>
    obtain ⟨ks', rfl, houter⟩ := h
    obtain ⟨hkind, rfl⟩ := eq_of_expect hnext
    exact ⟨ks', _, by simp [hkind], ⟨k :: es, rfl, he⟩, houter⟩

/-- The first token of an operand, seen from the operators that wait before
it. -/
theorem head?_getD_append {ks₂ ks' es' : List TokenKind} (heq : ks₂ ++ k :: es = ks' ++ es')
    (k' : TokenKind) (rest : List TokenKind) :
    (ks' ++ (es' ++ rest)).head?.getD k' = ks₂.head?.getD k := by
  rw [← List.append_assoc, ← heq]
  cases ks₂ <;> rfl

/-- **A token after an operand.** -/
theorem read_afterOperand (h : place.Read ks k) (he : Spells (k :: es) (.expr 6 e))
    (hnext : afterOperand e place t = .ok next) : next.Read (ks ++ (k :: es ++ [t.kind])) := by
  have hplace := h
  obtain ⟨pending, context⟩ := place
  obtain ⟨ks₁, ks₂, rfl, hpending, hcontext⟩ := h
  have hneed : ∀ p ∈ pending.head?, p.need ≤ 6 := fun p _ => Nat.le_succ_of_le p.need_le
  by_cases ht : t.kind.continues = true
  · rcases TokenKind.cases_of_continues ht with ⟨op, hkind⟩ | hkind | hkind
    · rw [afterOperand_binary _ _ hkind] at hnext
      cases hnext
      obtain ⟨ks', es', heq, hwaiting, hleft, hbelow⟩ :=
        hpending.settle he hneed (Nat.le_trans op.stratum_le (by decide))
      -- The operators that go on waiting and the left operand have the tokens that were there.
      refine fun k' => ⟨ks₁, ks' ++ (es' ++ [op.kind]), ?_, .binary hwaiting hbelow hleft, ?_⟩
      · rw [← List.append_assoc ks', ← heq]
        simp [hkind]
      · rw [head?_getD_append heq]
        exact hcontext
    · rw [afterOperand_call _ hkind] at hnext
      cases hnext
      exact ⟨_, k, es, by simp [hkind], he, hplace⟩
    · rw [afterOperand_index _ hkind] at hnext
      cases hnext
      exact fun _ => Context.Read.alone ⟨_, k, es, by simp [hkind], he, hplace⟩
  · rw [Bool.not_eq_true] at ht
    rw [afterOperand_close _ _ ht] at hnext
    obtain ⟨ks', es', heq, hwaiting, hwhole, -⟩ := hpending.settle (s := 1) he hneed (by decide)
    rw [Pending.settle_one] at hwaiting hwhole
    cases hwaiting with
    | nil =>
      obtain ⟨k', rest, rfl, -⟩ := hwhole.begins
      have hk' : ks₂.head?.getD k = k' := (head?_getD_append heq k []).symm
      rw [hk'] at hcontext
      have hclose := read_close hcontext hwhole ht hnext
      rw [List.nil_append] at heq
      rw [← heq] at hclose
      simpa using hclose

theorem read_readName {f : Ident → State} (hnext : readName t f = .ok next) :
    ∃ name, t.kind = .identifier name ∧ next = f ⟨name, t.span⟩ := by
  obtain ⟨kind, span⟩ := t
  cases kind with
  | identifier name =>
    cases hnext
    exact ⟨name, rfl, rfl⟩
  | _ => cases hnext

/-- **A token keeps what has been read explained.** -/
theorem Read.step {s : State} (h : s.Read ks) (heof : .eof ∉ ks) (hnext : s.step t = .ok next) :
    next.Read (ks ++ [t.kind]) := by
  cases s with
  | statement level => exact read_beginStatement h (fun hfree => by cases hfree) hnext
  | bindName start level =>
    obtain ⟨ks', free, rfl, hlevel⟩ := h
    rw [State.step] at hnext
    obtain ⟨name, hkind, rfl⟩ := read_readName hnext
    exact ⟨ks', free, by simp [hkind], hlevel⟩
  | bindSign start name level =>
    obtain ⟨ks', free, rfl, hlevel⟩ := h
    obtain ⟨hkind, rfl⟩ := eq_of_expect hnext
    exact fun _ => Context.Read.alone ⟨ks', free, by simp [hkind], hlevel⟩
  | operand place => exact read_beginOperand (h t.kind) hnext
  | operator e place =>
    obtain ⟨ks', k, es, rfl, he, hplace⟩ := h
    simpa using read_afterOperand hplace he hnext
  | firstArgument callee place =>
    obtain ⟨ks', k, es, rfl, hcallee, hplace⟩ := h
    rw [State.step] at hnext
    split at hnext
    · next hkind =>
      cases hnext
      refine ⟨ks', k, _, ?_, Spells.call hcallee .exprsNil, hplace⟩
      simp [hkind]
    · refine read_beginOperand (Context.Read.alone ?_) hnext
      exact ⟨ks', k, es, [], by simp, hcallee, .nil, hplace⟩
  | firstItem start place =>
    obtain ⟨ks', rfl, hplace⟩ := h
    rw [State.step] at hnext
    split at hnext
    · next hkind =>
      cases hnext
      exact ⟨ks', _, _, by simp [hkind], (Spells.array .exprsNil).tighter, hplace⟩
    · refine read_beginOperand (Context.Read.alone ?_) hnext
      exact ⟨ks', [], rfl, .nil, hplace⟩
  | entry start done place =>
    obtain ⟨ks', es, rfl, hdone, hplace⟩ := h
    rw [State.step] at hnext
    split at hnext
    · next hkind =>
      cases hnext
      have hentries := hdone.entries .entriesNil
      rw [List.append_nil, List.append_nil] at hentries
      exact ⟨ks', _, _, by simp [hkind], (Spells.map hentries).tighter, hplace⟩
    · refine read_beginOperand (Context.Read.alone ?_) hnext
      exact ⟨ks', es, rfl, hdone, hplace⟩
  | testOpen start place =>
    obtain ⟨ks', rfl, hplace⟩ := h
    obtain ⟨hkind, rfl⟩ := eq_of_expect hnext
    exact fun _ => Context.Read.alone ⟨ks', by simp [hkind], hplace⟩
  | yesOpen start test place | noOpen start test yes place | bodyOpen start params place =>
    obtain ⟨ks', heads, rfl, hheads, hplace⟩ := h
    obtain ⟨hkind, rfl⟩ := eq_of_expect hnext
    exact ⟨ks', heads, [], by simp [hkind], hheads, .nil, hplace⟩
  -- After the first branch an `else` decides whether the conditional is
  -- complete.
  | yesDone start test yes place =>
    obtain ⟨ks', heads, bs, rfl, hheads, hyes, hplace⟩ := h
    obtain ⟨ts, rfl, htest⟩ := hheads
    rw [State.step] at hnext
    split at hnext
    · next hkind =>
      cases hnext
      refine ⟨ks', _, ?_, ⟨ts, bs, rfl, htest, hyes⟩, hplace⟩
      simp [hkind]
    · simpa using read_afterOperand hplace (Spells.cond htest hyes).tighter hnext
  | paramsOpen start place =>
    obtain ⟨ks', rfl, hplace⟩ := h
    obtain ⟨hkind, rfl⟩ := eq_of_expect hnext
    exact ⟨ks', by simp [hkind], hplace⟩
  | firstParam start place =>
    obtain ⟨ks', rfl, hplace⟩ := h
    rw [State.step] at hnext
    split at hnext
    · next hkind =>
      cases hnext
      exact ⟨ks', _, by simp [hkind], ⟨[], rfl, .paramsNil⟩, hplace⟩
    · obtain ⟨name, hkind, rfl⟩ := read_readName hnext
      exact ⟨ks', [], ⟨name, t.span⟩, [], by simp [hkind], rfl, .nil, hplace⟩
  | param start done place =>
    obtain ⟨ks', ps, rfl, hdone, hplace⟩ := h
    rw [State.step] at hnext
    obtain ⟨name, hkind, rfl⟩ := read_readName hnext
    exact ⟨ks', ps, ⟨name, t.span⟩, done, by simp [hkind], rfl, hdone, hplace⟩
  | paramDone start done place =>
    obtain ⟨ks', ps, x, rest, rfl, rfl, hrest, hplace⟩ := h
    rw [State.step] at hnext
    split at hnext
    · next hkind =>
      cases hnext
      exact ⟨ks', _, by simp [hkind], hrest.snoc (x := x) rfl, hplace⟩
    · obtain ⟨hkind, rfl⟩ := eq_of_expect hnext
      exact ⟨ks', _, by simp [hkind], ⟨_, rfl, hrest.params⟩, hplace⟩
  | finished program =>
    -- A finished program has been read up to the end of the source.
    obtain ⟨ks', rfl, -⟩ := h
    simp at heof

end State

end

/-! ## Runs -/

/-- **Tokens lead from one state to another**, without an error on the way. -/
inductive State.Leads : State → List Token → State → Prop where
  | nil {s : State} : Leads s [] s
  | cons {s s₁ s₂ : State} {t : Token} {ts : List Token} :
      s.step t = .ok s₁ → Leads s₁ ts s₂ → Leads s (t :: ts) s₂

namespace State.Leads

variable {s s₁ s₂ : State} {ts ts' : List Token}

theorem append (h₁ : s.Leads ts s₁) (h₂ : s₁.Leads ts' s₂) : s.Leads (ts ++ ts') s₂ := by
  induction h₁ with
  | nil => exact h₂
  | cons hstep _ ih => exact .cons hstep (ih h₂)

theorem of_append (h : s.Leads (ts ++ ts') s₂) : ∃ s₁, s.Leads ts s₁ ∧ s₁.Leads ts' s₂ := by
  induction ts generalizing s with
  | nil => exact ⟨s, .nil, h⟩
  | cons t ts ih =>
    cases h with
    | cons hstep hrest =>
      obtain ⟨s₁, hfirst, hlast⟩ := ih hrest
      exact ⟨s₁, .cons hstep hfirst, hlast⟩

/-- **Tokens keep what has been read explained**, up to the end of the
source. -/
theorem read {ks : List TokenKind} (h : s.Leads ts s₁) (hs : s.Read ks) (hks : .eof ∉ ks)
    (hts : ∀ t ∈ ts, t.kind ≠ .eof) : s₁.Read (ks ++ ts.map Token.kind) := by
  induction h generalizing ks with
  | nil => simpa using hs
  | @cons s s₁ s₂ t ts hstep _ ih =>
    obtain ⟨ht, hts⟩ := List.forall_mem_cons.1 hts
    have hks' : .eof ∉ ks ++ [t.kind] := by simpa [hks] using ht.symm
    simpa using ih (hs.step hks hstep) hks' hts

end State.Leads

/-- **A program that has been read is rendered by the tokens before the end of
the source.** -/
theorem State.Leads.spells {ts : List Token} {t : Token} {program : List Stmt}
    (h : initial.Leads (ts ++ [t]) (.finished program)) (ht : t.kind = .eof)
    (hts : ∀ t ∈ ts, t.kind ≠ .eof) : Spells (ts.map Token.kind) (.stmts program) := by
  obtain ⟨s, hleads, hlast⟩ := h.of_append
  cases hlast with
  | cons hlast hnil =>
    cases hnil
    have hinitial : initial.Read [] := Sequence.nil
    have hread := hleads.read hinitial (by simp) hts
    rw [List.nil_append] at hread
    have heof : .eof ∉ ts.map Token.kind := by simpa using fun t ht => hts t ht
    obtain ⟨ks', heq, hspells⟩ := hread.step heof hlast
    rw [ht] at heq
    rwa [List.append_cancel_right heq]

end StackScript
