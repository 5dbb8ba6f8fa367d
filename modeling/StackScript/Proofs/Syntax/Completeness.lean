import StackScript.Proofs.Syntax.Bare
import StackScript.Proofs.Syntax.Soundness

/-!
# Renderings are read

Whatever tokens render is read, and it is read as what they render. For each
form `Form.Accepted` says what the reader comes to by the tokens of a rendering,
wherever the form may stand; the proof follows the grammar, one lemma for each
of its rules. Spans are left out of it: all tokens stand nowhere, and what is
read is bare.

An expression is not complete when its last token has been read, because
operators may still wait for what that token belongs to. So the reader is said
to have read an expression (`State.HasRead`) if completing the operators of the
expression that wait makes the expression. These are all of its stratum or
tighter, while those that waited before are looser, and this is why a token that
follows completes the former and not the latter.

Main statement: `parser_accepts_exactly_its_grammar`.
-/

namespace StackScript

/-- A token that stands nowhere. -/
def TokenKind.token (k : TokenKind) : Token := ⟨k, default⟩

@[simp] theorem TokenKind.kind_token (k : TokenKind) : k.token.kind = k := rfl

@[simp] theorem TokenKind.span_token (k : TokenKind) : k.token.span = default := rfl

namespace State

/-- **Tokens that stand nowhere lead from one state to another.** -/
def Runs (s : State) (ks : List TokenKind) (s' : State) : Prop :=
  s.Leads (ks.map TokenKind.token) s'

namespace Runs

variable {s s₁ s₂ : State} {k : TokenKind} {ks ks' : List TokenKind}

/-- Nothing is read of no tokens. -/
theorem nil : s.Runs [] s := Leads.nil

/-- One token and then the others. Runs are put together from this, `single` and
`append`. -/
theorem cons (h : s.step k.token = .ok s₁) (hrest : s₁.Runs ks s₂) : s.Runs (k :: ks) s₂ :=
  Leads.cons h hrest

theorem single (h : s.step k.token = .ok s₁) : s.Runs [k] s₁ := cons h nil

/-- What leads somewhere and on from there leads there at once. So the runs of
the parts of a form make a run of the whole. -/
theorem append (h₁ : s.Runs ks s₁) (h₂ : s₁.Runs ks' s₂) : s.Runs (ks ++ ks') s₂ := by
  unfold Runs
  rw [List.map_append]
  exact Leads.append h₁ h₂

/-- States that take the first token alike run alike. -/
theorem of_step (h : s.step k.token = s₁.step k.token) (hrun : s₁.Runs (k :: ks) s₂) :
    s.Runs (k :: ks) s₂ := by
  cases hrun with
  | cons hstep hrest => exact cons (h.trans hstep) hrest

end Runs

/-! ## Expressions that have been read -/

/-- A state that waits for what follows an operand. After a conditional without
another branch, one token is an exception. -/
def Awaits (s : State) (e : Expr) (place : Place) : Prop :=
  ∀ t : Token, t.kind ≠ .elseWord → s.step t = afterOperand e place t

/-- **An expression of a stratum has been read**: completing the operators of
its own that wait makes it. -/
def HasRead (s : State) (n : Nat) (e : Expr) (pending : List Pending) (context : Context) : Prop :=
  ∃ last own, s.Awaits last (.mk (own ++ pending) context) ∧ (∀ p ∈ own, n ≤ p.strength) ∧
    Pending.settleAll last own = e

end State

/-- **Operators that an expression of a stratum completes none of**: the strata
of operators between operands are tighter than those that wait, and in the
others there are no operators that complete any. -/
def Pending.Loose (n : Nat) (pending : List Pending) : Prop :=
  n ≤ 4 → ∀ p ∈ pending.head?, p.strength < n

/-- Operators that wait for a weak one wait for a stronger one as well. The
strengths of the grammar grow inward, so this is needed wherever a form is one
of a tighter kind. -/
theorem Pending.Loose.mono {n m : Nat} {pending : List Pending} (h : Loose n pending) (hm : n ≤ m) :
    Loose m pending :=
  fun hle p hp => Nat.lt_of_lt_of_le (h (Nat.le_trans hm hle) p hp) hm

/-- What follows completes the operators of an expression, and no others. -/
theorem Pending.settle_append {n : Nat} {own pending : List Pending}
    (hown : ∀ p ∈ own, n ≤ p.strength) (hpending : ∀ p ∈ pending.head?, p.strength < n) (e : Expr) :
    settle n e (own ++ pending) = (settleAll e own, pending) := by
  induction own generalizing e with
  | nil =>
    cases pending with
    | nil => rfl
    | cons p rest =>
      rw [List.nil_append, settle, if_neg (Nat.not_le_of_lt (hpending p rfl))]
      rfl
  | cons p own ih =>
    obtain ⟨hp, hown⟩ := List.forall_mem_cons.1 hown
    rw [List.cons_append, settle, if_pos hp, ih hown]
    rfl

/-- The oldest operator is completed last. -/
theorem Pending.settleAll_concat (e : Expr) (own : List Pending) (p : Pending) :
    settleAll e (own ++ [p]) = p.apply (settleAll e own) := by
  simp [settleAll]

namespace State.HasRead

variable {s : State} {n : Nat} {e : Expr} {pending : List Pending} {context : Context} {t : Token}

/-- An operand alone. -/
theorem of_awaits (h : s.Awaits e (.mk pending context)) : s.HasRead n e pending context :=
  ⟨e, [], h, by simp, rfl⟩

/-- An operand that has just been read is an expression of every kind, with
nothing settled yet. -/
theorem operator : (State.operator e (.mk pending context)).HasRead n e pending context :=
  of_awaits fun _ _ => rfl

/-- An operator of the expression's stratum follows. -/
theorem step_binary {op : BinaryOp} (h : s.HasRead op.stratum e pending context)
    (hloose : Pending.Loose op.stratum pending) (ht : t.kind = op.kind) :
    s.step t = .ok (.operand (.mk (.binary op e :: pending) context)) := by
  obtain ⟨last, own, hawaits, hown, rfl⟩ := h
  have helse : t.kind ≠ .elseWord := by
    rw [ht]
    cases op <;> simp [BinaryOp.kind]
  rw [hawaits t helse, afterOperand_binary _ _ ht,
    Pending.settle_append hown (hloose op.stratum_le)]

/-- No operators wait in an expression that is tighter than all of them. -/
theorem awaits (h : s.HasRead n e pending context) (hn : 5 < n) :
    s.Awaits e (.mk pending context) := by
  obtain ⟨last, own, hawaits, hown, rfl⟩ := h
  cases own with
  | nil => exact hawaits
  | cons p rest => exact absurd (hown p List.mem_cons_self) (by have := p.strength_le; omega)

/-- A token that ends the expression. -/
theorem step_close (h : s.HasRead n e [] context) (ht : t.kind.continues = false)
    (helse : t.kind ≠ .elseWord) : s.step t = State.close e context t := by
  obtain ⟨last, own, hawaits, -, rfl⟩ := h
  rw [hawaits t helse, List.append_nil, afterOperand_close _ _ ht]

end State.HasRead

/-! ## Forms that are read -/

/-- The sequence with more statements, without their spans. -/
def Level.pushAll (level : Level) (ss : List Stmt) : Level :=
  ss.foldl (fun l s => l.push s.bare) level

/-- A construct that waits for the items of a list, given those that it has. -/
def IsList (item : List Expr → Context) : Prop :=
  ∀ done e t, t.kind = .comma →
    State.close e (item done) t = .ok (.operand (.mk [] (item (e :: done))))

/-- **What the reader comes to by the rendering of a form.** -/
def Form.Accepted (ks : List TokenKind) : Form → Prop
  | .expr n e => ∀ pending context, Pending.Loose n pending →
      ∃ s, (State.operand (.mk pending context)).Runs ks s ∧ s.HasRead n e.bare pending context
  | .exprs es => ∀ item, IsList item → ∀ done front last, es.map Expr.bare = front ++ [last] →
      ∃ s, (State.operand (.mk [] (item done))).Runs ks s ∧
        s.HasRead 1 last [] (item (front.reverse ++ done))
  | .entries xs => ∀ done place, (State.entry default done place).Runs (ks ++ [.braceClose])
      (.operator (.map (done.reverse ++ xs.map Expr.bareEntry) default) place)
  | .params xs => ∀ place,
      (State.firstParam default place).Runs (ks ++ [.parenClose])
        (.bodyOpen default (xs.map Ident.bare) place) ∧
      (xs ≠ [] → ∀ done, (State.param default done place).Runs (ks ++ [.parenClose])
        (.bodyOpen default (done.reverse ++ xs.map Ident.bare) place))
  | .block b => ∀ (s : State) (owner : Owner) (place : Place),
      s.step TokenKind.braceOpen.token = .ok (.statement (.block owner default [] place)) →
      s.Runs ks (State.endBlock owner b.bare place)
  | .stmt x => ∀ level, ∃ s, (State.statement level).Runs ks s ∧
      ∀ t : Token, t.kind.continues = false → t.kind ≠ .elseWord →
        s.step t = State.endStatement (level.push x.bare) t
  | .stmts xs => ∀ level, ∃ s, (State.statement level).Runs ks s ∧
      ∀ t : Token, t.kind.continues = false → t.kind ≠ .elseWord → t.kind ≠ .semicolon →
        s.step t = State.beginStatement (level.pushAll xs) t

namespace State

variable {k : TokenKind} {place : Place}

/-! ## Where an expression begins -/

/-- Where a statement may begin, a token that starts an operand is read as if
the operand were there already. The lemmas that follow say the same of the other
places where an operand may come first. -/
theorem step_statement (hk : k.startsOperand = true) (level : Level) :
    (statement level).step k.token = (operand (.mk [] (.statement level))).step k.token := by
  cases k with
  | letWord | returnWord | eof | braceClose => cases hk
  | _ => rfl

/-- The same after the parenthesis of a call, unless there are no arguments. -/
theorem step_firstArgument (hk : k.startsOperand = true) (callee : Expr) :
    (firstArgument callee place).step k.token =
      (operand (.mk [] (.argument callee [] place))).step k.token := by
  refine if_neg ?_
  rintro rfl
  cases hk

/-- The same after the bracket of an array, unless there are no items. -/
theorem step_firstItem (hk : k.startsOperand = true) (start : Span) :
    (firstItem start place).step k.token =
      (operand (.mk [] (.item start [] place))).step k.token := by
  refine if_neg ?_
  rintro rfl
  cases hk

/-- The same where an entry of a map may begin. There may be a comma before the
brace, so this is so after every entry. -/
theorem step_entry (hk : k.startsOperand = true) (start : Span) (done : List (Expr × Expr)) :
    (entry start done place).step k.token =
      (operand (.mk [] (.key start done place))).step k.token := by
  refine if_neg ?_
  rintro rfl
  cases hk

end State

namespace Form

open State

variable {ks ks' ks'' : List TokenKind} {n : Nat} {e : Expr} {span : Span}

/-! ## Operators -/

/-- An expression that binds more tightly may stand where a looser one is
expected. Nothing is read for this; only the operators that wait have to be
looser still. -/
theorem accepted_tighter (h : (expr (n + 1) e).Accepted ks) : (expr n e).Accepted ks := by
  intro pending context hloose
  obtain ⟨s, hrun, last, own, hawaits, hown, heq⟩ := h pending context (hloose.mono (Nat.le_succ n))
  exact ⟨s, hrun, last, own, hawaits, fun p hp => Nat.le_of_succ_le (hown p hp), heq⟩

/-- The operator joins those of its right operand that wait. -/
theorem accepted_binary {op : BinaryOp} {left right : Expr}
    (hleft : (expr op.stratum left).Accepted ks)
    (hright : (expr (op.stratum + 1) right).Accepted ks') :
    (expr op.stratum (.binary op left right span)).Accepted (ks ++ op.kind :: ks') := by
  intro pending context hloose
  have hstrength : (Pending.binary op left.bare).strength = op.stratum := op.strength_eq
  obtain ⟨s₁, hrun₁, hread₁⟩ := hleft pending context hloose
  obtain ⟨s₂, hrun₂, last, own, hawaits, hown, heq⟩ :=
    hright (.binary op left.bare :: pending) context fun _ p hp => by
      cases hp
      rw [hstrength]
      exact Nat.lt_succ_self _
  refine ⟨s₂, hrun₁.append (.cons (hread₁.step_binary hloose rfl) hrun₂), last,
    own ++ [.binary op left.bare], ?_, ?_, ?_⟩
  · rwa [List.append_assoc]
  · refine List.forall_mem_append.2 ⟨fun p hp => Nat.le_of_succ_le (hown p hp), ?_⟩
    simp [hstrength]
  · rw [Pending.settleAll_concat, heq]
    simp [Pending.apply, Expr.bare]

/-- An operator before its operand waits until the operand is complete, and is
applied before any operator between two operands. -/
theorem accepted_unary {op : UnaryOp} (h : (expr 5 e).Accepted ks) :
    (expr 5 (.unary op e span)).Accepted (op.kind :: ks) := by
  intro pending context _
  obtain ⟨s, hrun, last, own, hawaits, hown, heq⟩ :=
    h (.unary op default :: pending) context fun hle => absurd hle (by decide)
  have hstep : (operand (.mk pending context)).step op.kind.token =
      .ok (operand (.mk (.unary op default :: pending) context)) := by
    cases op <;> rfl
  refine ⟨s, .cons hstep hrun, last, own ++ [.unary op default], ?_, ?_, ?_⟩
  · rwa [List.append_assoc]
  · refine List.forall_mem_append.2 ⟨hown, ?_⟩
    simp [Pending.strength, UnaryOp.strength]
  · rw [Pending.settleAll_concat, heq]
    simp [Pending.apply, Expr.bare]

/-! ## Lists -/

/-- A list of expressions goes on at a comma. The expressions read so far are
kept in reverse. -/
theorem accepted_exprsCons {e' : Expr} {es : List Expr} (he : (expr 1 e).Accepted ks)
    (hes : (exprs (e' :: es)).Accepted ks') :
    (exprs (e :: e' :: es)).Accepted (ks ++ .comma :: ks') := by
  intro item hitem done front last heq
  obtain ⟨s₁, hrun₁, hread₁⟩ := he [] (item done) fun _ => by simp
  cases front with
  | nil => simp at heq
  | cons first front =>
    rw [List.map_cons, List.cons_append, List.cons.injEq] at heq
    obtain ⟨rfl, heq⟩ := heq
    obtain ⟨s₂, hrun₂, hread₂⟩ := hes item hitem (e.bare :: done) front last heq
    have hcomma := (hread₁.step_close (t := TokenKind.comma.token) rfl (by simp)).trans
      (hitem done e.bare _ rfl)
    exact ⟨s₂, hrun₁.append (.cons hcomma hrun₂), by simpa using hread₂⟩

/-- The last expression of a list is closed by what closes the list. -/
theorem accepted_exprsOne (he : (expr 1 e).Accepted ks) : (exprs [e]).Accepted ks := by
  intro item hitem done front last heq
  obtain ⟨s, hrun, hread⟩ := he [] (item done) fun _ => by simp
  cases front with
  | nil =>
    cases heq
    exact ⟨s, hrun, hread⟩
  | cons first front => simp at heq

/-- **A list in brackets**: from where its first item is wanted to what its end
makes of it. -/
theorem runs_exprs {es : List Expr} (hspells : Spells ks (.exprs es)) (h : (exprs es).Accepted ks)
    {item : List Expr → Context} (hitem : IsList item) {s : State} {last : TokenKind}
    (next : List Expr → State)
    (hfirst : ∀ k : TokenKind, k.startsOperand = true →
      s.step k.token = (operand (.mk [] (item []))).step k.token)
    (hempty : s.step last.token = .ok (next []))
    (hclose : ∀ done e, State.close e (item done) last.token = .ok (next (e :: done).reverse))
    (hlast : last.continues = false) (helse : last ≠ .elseWord) :
    s.Runs (ks ++ [last]) (next (es.map Expr.bare)) := by
  cases es with
  | nil =>
    obtain rfl : ks = [] := hspells.begins
    exact .single hempty
  | cons e rest =>
    obtain ⟨k, ks, rfl, hk⟩ := hspells.begins
    rcases List.eq_nil_or_concat ((e :: rest).map Expr.bare) with hnil | ⟨front, final, heq⟩
    · simp at hnil
    · rw [List.concat_eq_append] at heq
      obtain ⟨s', hrun, hread⟩ := h item hitem [] front final heq
      refine (hrun.of_step (hfirst k hk)).append (.single ?_)
      rw [hread.step_close hlast helse, hclose, heq]
      simp

/-- Arguments are one of the two lists of expressions. -/
theorem isList_argument (callee : Expr) (place : Place) :
    IsList fun done => .argument callee done place := fun _ _ _ ht => if_pos ht

/-- The items of an array are the other one. What is asked of both is that a
comma makes them go on. -/
theorem isList_item (start : Span) (place : Place) : IsList fun done => .item start done place :=
  fun _ _ _ ht => if_pos ht

/-! ## Calls and look-ups -/

/-- A call: the callee, and arguments in parentheses. Without arguments the
parenthesis is closed at once, by a state of its own. -/
theorem accepted_call {callee : Expr} {args : List Expr} (hcallee : (expr 6 callee).Accepted ks)
    (hspells : Spells ks' (.exprs args)) (hargs : (exprs args).Accepted ks') :
    (expr 6 (.call callee args span)).Accepted (ks ++ .parenOpen :: (ks' ++ [.parenClose])) := by
  intro pending context hloose
  obtain ⟨s, hrun, hread⟩ := hcallee pending context hloose
  have hopen : s.step TokenKind.parenOpen.token =
      .ok (.firstArgument callee.bare (.mk pending context)) := by
    rw [hread.awaits (by decide) _ (by simp), afterOperand_call _ rfl]
  have hlist : (State.firstArgument callee.bare (.mk pending context)).Runs (ks' ++ [.parenClose])
      (.operator (.call callee.bare (args.map Expr.bare) default) (.mk pending context)) :=
    runs_exprs hspells hargs (isList_argument _ _)
      (fun es => .operator (.call callee.bare es default) (.mk pending context))
      (fun k hk => step_firstArgument hk _)
      (by simp [State.step]) (fun done e => by simp [State.close, State.expect]) rfl (by simp)
  refine ⟨_, hrun.append (.cons hopen hlist), ?_⟩
  simp only [Expr.bare, Expr.bareAll_eq]
  exact .operator

/-- An index: the container, and a key in brackets. -/
theorem accepted_index {container key : Expr} (hcontainer : (expr 6 container).Accepted ks)
    (hkey : (expr 1 key).Accepted ks') :
    (expr 6 (.index container key span)).Accepted
      (ks ++ .bracketOpen :: (ks' ++ [.bracketClose])) := by
  intro pending context hloose
  obtain ⟨s₁, hrun₁, hread₁⟩ := hcontainer pending context hloose
  obtain ⟨s₂, hrun₂, hread₂⟩ :=
    hkey [] (.lookup container.bare (.mk pending context)) fun _ => by simp
  have hopen : s₁.step TokenKind.bracketOpen.token =
      .ok (operand (.mk [] (.lookup container.bare (.mk pending context)))) := by
    rw [hread₁.awaits (by decide) _ (by simp), afterOperand_index _ rfl]
  have hclose : s₂.step TokenKind.bracketClose.token =
      .ok (.operator (.index container.bare key.bare default) (.mk pending context)) := by
    rw [hread₂.step_close rfl (by simp)]
    simp [State.close, State.expect]
  refine ⟨_, hrun₁.append (.cons hopen (hrun₂.append (.single hclose))), ?_⟩
  simp only [Expr.bare]
  exact .operator

/-! ## What needs no operators -/

/-- A single token. -/
theorem accepted_token {k : TokenKind}
    (h : ∀ place, beginOperand place k.token = .ok (.operator e.bare place)) :
    (expr n e).Accepted [k] :=
  fun pending context _ => ⟨_, .single (h (.mk pending context)), .operator⟩

/-- Parentheses change what an expression may stand for, and its span, but
nothing else. They make it as tight as an operand. -/
theorem accepted_group (h : (expr 1 e).Accepted ks) :
    (expr n (e.withSpan span)).Accepted (.parenOpen :: (ks ++ [.parenClose])) := by
  intro pending context _
  obtain ⟨s, hrun, hread⟩ := h [] (.group default (.mk pending context)) fun _ => by simp
  have hclose : s.step TokenKind.parenClose.token =
      .ok (.operator e.bare (.mk pending context)) := by
    rw [hread.step_close rfl (by simp)]
    simp [State.close, State.expect]
  refine ⟨_, .cons rfl (hrun.append (.single hclose)), ?_⟩
  rw [Expr.bare_withSpan]
  exact .operator

/-- The test of a conditional. -/
theorem runs_test {test : Expr} (h : (expr 1 test).Accepted ks) (place : Place) :
    (operand place).Runs (.ifWord :: .parenOpen :: (ks ++ [.parenClose]))
      (.yesOpen default test.bare place) := by
  obtain ⟨s, hrun, hread⟩ := h [] (.test default place) fun _ => by simp
  refine .cons rfl (.cons rfl (hrun.append (.single ?_)))
  rw [hread.step_close rfl (by simp)]
  rfl

/-- A conditional without another branch. It is complete after its block, so
what comes next decides that there is no other branch. -/
theorem accepted_cond {test : Expr} {yes : Block} (htest : (expr 1 test).Accepted ks)
    (hyes : (block yes).Accepted ks') :
    (expr n (.cond test yes none span)).Accepted
      (.ifWord :: .parenOpen :: (ks ++ .parenClose :: ks')) := by
  intro pending context _
  have hrun := (runs_test htest (.mk pending context)).append
    (hyes _ (.yes default test.bare) (.mk pending context) rfl)
  refine ⟨_, by simpa using hrun, ?_⟩
  -- What follows makes a conditional of what has been read, unless it begins the other branch.
  refine .of_awaits fun t helse => ?_
  simp [State.step, State.endBlock, helse, Expr.bare]

/-- A conditional with both branches. -/
theorem accepted_condElse {test : Expr} {yes no : Block} (htest : (expr 1 test).Accepted ks)
    (hyes : (block yes).Accepted ks') (hno : (block no).Accepted ks'') :
    (expr n (.cond test yes (some no) span)).Accepted
      (.ifWord :: .parenOpen :: (ks ++ .parenClose :: (ks' ++ .elseWord :: ks''))) := by
  intro pending context _
  have hrun := ((runs_test htest (.mk pending context)).append
    (hyes _ (.yes default test.bare) (.mk pending context) rfl)).append
    (.cons (k := .elseWord) rfl (hno _ (.no default test.bare yes.bare) (.mk pending context) rfl))
  refine ⟨_, by simpa using hrun, ?_⟩
  simp only [State.endBlock, Expr.bare, Block.bareOther_eq, Option.map_some, Block.span_bare,
    Span.merge_default]
  exact .operator

/-- A function literal. It has no name here: names are given by bindings. -/
theorem accepted_function {params : List Ident} {body : Block}
    (hparams : (Form.params params).Accepted ks) (hbody : (block body).Accepted ks') :
    (expr n (.function none params body span)).Accepted
      (.fnWord :: .parenOpen :: (ks ++ .parenClose :: ks')) := by
  intro pending context _
  have hrun := ((hparams (.mk pending context)).1).append
    (hbody _ (.function default (params.map Ident.bare)) (.mk pending context) rfl)
  refine ⟨_, .cons rfl (.cons rfl (by simpa using hrun)), ?_⟩
  simp only [State.endBlock, Expr.bare, Block.span_bare, Span.merge_default]
  exact .operator

/-- An array, which may be empty. -/
theorem accepted_array {items : List Expr} (hspells : Spells ks (.exprs items))
    (h : (exprs items).Accepted ks) :
    (expr n (.array items span)).Accepted (.bracketOpen :: (ks ++ [.bracketClose])) := by
  intro pending context _
  have hlist : (State.firstItem default (.mk pending context)).Runs (ks ++ [.bracketClose])
      (.operator (.array (items.map Expr.bare) default) (.mk pending context)) :=
    runs_exprs hspells h (isList_item _ _)
      (fun es => .operator (.array es default) (.mk pending context))
      (fun k hk => step_firstItem hk _)
      (by simp [State.step]) (fun done e => by simp [State.close, State.expect]) rfl (by simp)
  refine ⟨_, .cons rfl hlist, ?_⟩
  simp only [Expr.bare, Expr.bareAll_eq]
  exact .operator

/-- A map. Its entries may be followed by a comma, which is why they are read by
one state whether more of them come or not. -/
theorem accepted_map {xs : List (Expr × Expr)} (h : (entries xs).Accepted ks) :
    (expr n (.map xs span)).Accepted (.braceOpen :: (ks ++ [.braceClose])) := by
  intro pending context _
  refine ⟨_, .cons rfl (h [] (.mk pending context)), ?_⟩
  simp only [Expr.bare, Expr.barePairs_eq, List.reverse_nil, List.nil_append]
  exact .operator

/-! ## Entries and parameters -/

/-- An entry of a map. -/
theorem runs_entry {key value : Expr} (hspells : Spells ks (.expr 1 key))
    (hkey : (expr 1 key).Accepted ks) (hvalue : (expr 1 value).Accepted ks')
    (done : List (Expr × Expr)) (place : Place) :
    ∃ s, (State.entry default done place).Runs (ks ++ .colon :: ks') s ∧
      s.HasRead 1 value.bare [] (.value default done key.bare place) := by
  obtain ⟨k, ks, rfl, hk⟩ := hspells.begins
  obtain ⟨s₁, hrun₁, hread₁⟩ := hkey [] (.key default done place) fun _ => by simp
  obtain ⟨s₂, hrun₂, hread₂⟩ := hvalue [] (.value default done key.bare place) fun _ => by simp
  have hcolon : s₁.step TokenKind.colon.token =
      .ok (operand (.mk [] (.value default done key.bare place))) := by
    rw [hread₁.step_close rfl (by simp)]
    simp [State.close, State.expect]
  exact ⟨s₂, (hrun₁.of_step (step_entry hk _ _)).append (.cons hcolon hrun₂), hread₂⟩

/-- An entry is a key and a value. The key is not the first token after the
brace alone, so it has to be known how keys may begin. -/
theorem accepted_entriesOne {key value : Expr} (hspells : Spells ks (.expr 1 key))
    (hkey : (expr 1 key).Accepted ks) (hvalue : (expr 1 value).Accepted ks') :
    (entries [(key, value)]).Accepted (ks ++ .colon :: ks') := by
  intro done place
  obtain ⟨s, hrun, hread⟩ := runs_entry hspells hkey hvalue done place
  refine hrun.append (.single ?_)
  rw [hread.step_close rfl (by simp)]
  simp [State.close, Expr.bareEntry]

/-- Entries go on at a comma. -/
theorem accepted_entriesCons {key value : Expr} {xs : List (Expr × Expr)}
    (hspells : Spells ks (.expr 1 key)) (hkey : (expr 1 key).Accepted ks)
    (hvalue : (expr 1 value).Accepted ks') (hxs : (entries xs).Accepted ks'') :
    (entries ((key, value) :: xs)).Accepted (ks ++ .colon :: (ks' ++ .comma :: ks'')) := by
  intro done place
  obtain ⟨s, hrun, hread⟩ := runs_entry hspells hkey hvalue done place
  have hcomma : s.step TokenKind.comma.token =
      .ok (.entry default ((key.bare, value.bare) :: done) place) := by
    rw [hread.step_close rfl (by simp)]
    simp [State.close, State.expect]
  simpa [Expr.bareEntry] using hrun.append (.cons hcomma (hxs _ place))

/-- The last parameter is closed by the parenthesis. -/
theorem accepted_paramsOne {x : Ident} : (Form.params [x]).Accepted [.identifier x.name] := by
  intro place
  refine ⟨.cons rfl (.single rfl), fun _ done => .cons rfl (.single ?_)⟩
  simp [State.step, State.expect, Ident.bare]

/-- Parameters go on at a comma, and another name has to come then. -/
theorem accepted_paramsCons {x x' : Ident} {xs : List Ident}
    (h : (Form.params (x' :: xs)).Accepted ks) :
    (Form.params (x :: x' :: xs)).Accepted (.identifier x.name :: .comma :: ks) := by
  intro place
  have hrest := (h place).2 (by simp)
  refine ⟨.cons rfl (.cons rfl (hrest [x.bare])), fun _ done => ?_⟩
  simpa using Runs.cons rfl (Runs.cons rfl (hrest (x.bare :: done)))

end Form

/-! ## Statements -/

/-- Statements of a program are kept in reverse while it is being read, without
their spans. -/
theorem Level.pushAll_program (done xs : List Stmt) :
    (Level.program done).pushAll xs = .program ((xs.map Stmt.bare).reverse ++ done) := by
  induction xs generalizing done with
  | nil => rfl
  | cons x xs ih => exact (ih (x.bare :: done)).trans (by simp)

/-- So are those of a block, which also remembers whose block it is. -/
theorem Level.pushAll_block (owner : Owner) (brace : Span) (done xs : List Stmt) (outer : Place) :
    (Level.block owner brace done outer).pushAll xs =
      .block owner brace ((xs.map Stmt.bare).reverse ++ done) outer := by
  induction xs generalizing done with
  | nil => rfl
  | cons x xs ih => exact (ih (x.bare :: done)).trans (by simp)

namespace Form

open State

variable {ks ks' : List TokenKind} {e : Expr} {span : Span} {x : Stmt} {xs : List Stmt}

/-- A block is its statements in braces. They are read at a level of their own,
and the brace goes back to the one around. -/
theorem accepted_block (h : (stmts xs).Accepted ks) :
    (block (.mk xs span)).Accepted (.braceOpen :: (ks ++ [.braceClose])) := by
  intro s owner place hopen
  obtain ⟨s', hrun, hstep⟩ := h (.block owner default [] place)
  refine .cons hopen (hrun.append (.single ?_))
  rw [hstep _ rfl (by simp) (by simp), Level.pushAll_block]
  simp [State.beginStatement, Block.bare]

/-- A binding: its value gets the name, if it is a function literal. -/
theorem accepted_bind {name : Ident} (h : (expr 1 e).Accepted ks) :
    (stmt (.bind name (e.named name.name) span)).Accepted
      (.letWord :: .identifier name.name :: .assign :: ks) := by
  intro level
  obtain ⟨s, hrun, hread⟩ := h [] (.bindValue default name.bare level) fun _ => by simp
  refine ⟨s, .cons rfl (.cons rfl (.cons rfl hrun)), fun t ht helse => ?_⟩
  rw [hread.step_close ht helse]
  simp [State.close, Stmt.bare, Ident.bare]

/-- A statement that returns a value. -/
theorem accepted_ret (h : (expr 1 e).Accepted ks) :
    (stmt (.ret e span)).Accepted (.returnWord :: ks) := by
  intro level
  obtain ⟨s, hrun, hread⟩ := h [] (.retValue default level) fun _ => by simp
  refine ⟨s, .cons rfl hrun, fun t ht helse => ?_⟩
  rw [hread.step_close ht helse]
  simp [State.close, Stmt.bare]

/-- An expression as a statement. There is no keyword to begin with, so the
expression has to begin as an operand does. -/
theorem accepted_expr (hspells : Spells ks (.expr 1 e)) (h : (expr 1 e).Accepted ks) :
    (stmt (.expr e span)).Accepted ks := by
  intro level
  obtain ⟨k, ks, rfl, hk⟩ := hspells.begins
  obtain ⟨s, hrun, hread⟩ := h [] (.statement level) fun _ => by simp
  refine ⟨s, hrun.of_step (step_statement hk level), fun t ht helse => ?_⟩
  rw [hread.step_close ht helse]
  simp [State.close, Stmt.bare]

/-- Statements with a semicolon between them. -/
theorem accepted_stmtsCons (hx : (stmt x).Accepted ks) (hxs : (stmts xs).Accepted ks') :
    (stmts (x :: xs)).Accepted (ks ++ .semicolon :: ks') := by
  intro level
  obtain ⟨s₁, hrun₁, hstep₁⟩ := hx level
  obtain ⟨s₂, hrun₂, hstep₂⟩ := hxs (level.push x.bare)
  exact ⟨s₂, hrun₁.append (.cons (hstep₁ _ rfl (by simp)) hrun₂), hstep₂⟩

/-- Without a semicolon, the statement ends when the next token comes. -/
theorem accepted_stmtsJoin (hx : (stmt x).Accepted ks) (hspells : Spells ks' (.stmts xs))
    (hxs : (stmts xs).Accepted ks') (hks' : ∀ k ∈ ks'.head?, k.continues = false) :
    (stmts (x :: xs)).Accepted (ks ++ ks') := by
  intro level
  obtain ⟨s₁, hrun₁, hstep₁⟩ := hx level
  obtain ⟨s₂, hrun₂, hstep₂⟩ := hxs (level.push x.bare)
  have hnext : ∀ t : Token, t.kind.continues = false → t.kind ≠ .elseWord → t.kind ≠ .semicolon →
      s₁.step t = (State.statement (level.push x.bare)).step t := by
    intro t ht helse hsemicolon
    rw [hstep₁ t ht helse, State.endStatement, if_neg hsemicolon]
    rfl
  cases xs with
  | nil =>
    obtain rfl : ks' = [] := hspells.begins
    cases hrun₂ with
    | nil =>
      refine ⟨s₁, by simpa using hrun₁, fun t ht helse hsemicolon => ?_⟩
      rw [hnext t ht helse hsemicolon, hstep₂ t ht helse hsemicolon]
      rfl
  | cons y ys =>
    obtain ⟨k, ks', rfl, hk⟩ := hspells.begins
    have hstep := hnext k.token (hks' k rfl) (by rintro rfl; cases hk) (by rintro rfl; cases hk)
    exact ⟨s₂, hrun₁.append (hrun₂.of_step hstep), hstep₂⟩

end Form

/-- **Renderings are read.** -/
theorem Spells.accepted {ks : List TokenKind} {f : Form} (h : Spells ks f) : f.Accepted ks := by
  induction h with
  | tighter _ ih => exact Form.accepted_tighter ih
  | binary _ _ ih₁ ih₂ => exact Form.accepted_binary ih₁ ih₂
  | unary _ ih => exact Form.accepted_unary ih
  | call _ hargs ih₁ ih₂ => exact Form.accepted_call ih₁ hargs ih₂
  | index _ _ ih₁ ih₂ => exact Form.accepted_index ih₁ ih₂
  | ident | number | string =>
    exact Form.accepted_token fun _ => by simp [State.beginOperand, Expr.bare]
  | @boolean value =>
    cases value <;> exact Form.accepted_token fun _ => by
      simp [State.beginOperand, TokenKind.ofBool, Expr.bare]
  | group _ ih => exact Form.accepted_group ih
  | cond _ _ ih₁ ih₂ => exact Form.accepted_cond ih₁ ih₂
  | condElse _ _ _ ih₁ ih₂ ih₃ => exact Form.accepted_condElse ih₁ ih₂ ih₃
  | function _ _ ih₁ ih₂ => exact Form.accepted_function ih₁ ih₂
  | array h ih => exact Form.accepted_array h ih
  | map _ ih => exact Form.accepted_map ih
  | exprsNil => exact fun _ _ _ _ _ heq => by simp at heq
  | exprsOne _ ih => exact Form.accepted_exprsOne ih
  | exprsCons _ _ ih₁ ih₂ => exact Form.accepted_exprsCons ih₁ ih₂
  | entriesNil => exact fun done place => .single (by simp [State.step])
  | entriesOne h _ ih₁ ih₂ => exact Form.accepted_entriesOne h ih₁ ih₂
  | entriesCons h _ _ ih₁ ih₂ ih₃ => exact Form.accepted_entriesCons h ih₁ ih₂ ih₃
  | paramsNil => exact fun _ => ⟨.single rfl, fun hne => (hne rfl).elim⟩
  | paramsOne => exact Form.accepted_paramsOne
  | paramsCons _ ih => exact Form.accepted_paramsCons ih
  | block _ ih => exact Form.accepted_block ih
  | bind _ ih => exact Form.accepted_bind ih
  | ret _ ih => exact Form.accepted_ret ih
  | expr h ih => exact Form.accepted_expr h ih
  | stmtsNil => exact fun level => ⟨.statement level, .nil, fun _ _ _ _ => rfl⟩
  | stmtsCons _ _ ih₁ ih₂ => exact Form.accepted_stmtsCons ih₁ ih₂
  | stmtsJoin _ h hks' ih₁ ih₂ => exact Form.accepted_stmtsJoin ih₁ h ih₂ hks'

/-! ## Programs -/

/-- A rendering of a program leads to it. -/
theorem Spells.runs {ks : List TokenKind} {program : List Stmt} (h : Spells ks (.stmts program)) :
    State.initial.Runs (ks ++ [.eof]) (.finished (program.map Stmt.bare)) := by
  obtain ⟨s, hrun, hstep⟩ := h.accepted (.program [])
  refine hrun.append (.single ?_)
  rw [hstep _ rfl (by simp) (by simp), Level.pushAll_program]
  simp [State.beginStatement]

/-- Where bare tokens lead, tokens lead but for the spans. -/
theorem State.Leads.of_bare {s s₂ : State} {ts : List Token}
    (h : s.bare.Leads (ts.map Token.bare) s₂) : ∃ s₁, s.Leads ts s₁ ∧ s₁.bare = s₂ := by
  induction ts generalizing s with
  | nil =>
    cases h with
    | nil => exact ⟨s, .nil, rfl⟩
  | cons t ts ih =>
    cases h with
    | cons hstep hrest =>
      rw [← State.bare_step] at hstep
      cases hs : s.step t with
      | error e =>
        rw [hs] at hstep
        cases hstep
      | ok s₁ =>
        rw [hs] at hstep
        cases hstep
        obtain ⟨s', hleads, hbare⟩ := ih hrest
        exact ⟨s', .cons hs hleads, hbare⟩

/-! ## The end of the source -/

namespace State

variable {s next : State} {t : Token} {level : Level} {place : Place}

/-- The end of the source begins no operand. This and the lemmas that follow go
through the states, to show that only a whole program may end there. -/
theorem beginOperand_ne_ok (ht : t.kind = .eof) : beginOperand place t ≠ .ok next := by
  unfold beginOperand
  rw [ht]
  exact nofun

/-- Nor is it the token that has to come, except where the end itself is
expected. -/
theorem expect_ne_ok {kind : TokenKind} (ht : t.kind = .eof) (hkind : kind ≠ .eof) :
    expect kind t s ≠ .ok next :=
  fun h => hkind ((eq_of_expect h).1.symm.trans ht)

/-- Nor is it a name. -/
theorem readName_ne_ok {f : Ident → State} (ht : t.kind = .eof) : readName t f ≠ .ok next := by
  unfold readName
  rw [ht]
  exact nofun

/-- Where a statement may begin, the source may end, but only at the outermost
level. -/
theorem finished_of_beginStatement (ht : t.kind = .eof) (h : beginStatement level t = .ok next) :
    ∃ program, next = .finished program := by
  unfold beginStatement at h
  rw [ht] at h
  cases level with
  | program =>
    cases h
    exact ⟨_, rfl⟩
  | block => cases h

/-- The same after a statement, with or without a semicolon. -/
theorem finished_of_endStatement (ht : t.kind = .eof) (h : endStatement level t = .ok next) :
    ∃ program, next = .finished program := by
  rw [endStatement, if_neg (by simp [ht])] at h
  exact finished_of_beginStatement ht h

/-- The same after an expression, if it is all of a statement. -/
theorem finished_of_afterOperand {e : Expr} (ht : t.kind = .eof)
    (h : afterOperand e place t = .ok next) : ∃ program, next = .finished program := by
  obtain ⟨pending, context⟩ := place
  rw [afterOperand_close _ _ (by simp [ht, TokenKind.continues])] at h
  cases context with
  | statement | bindValue | retValue => exact finished_of_endStatement ht h
  | group | lookup | key | test => exact absurd h (expect_ne_ok ht (by simp))
  | argument | item | value =>
    rw [close, if_neg (by simp [ht])] at h
    exact absurd h (expect_ne_ok ht (by simp))

/-- **The end of the source can only end the program.** -/
theorem finished_of_step (ht : t.kind = .eof) (h : s.step t = .ok next) :
    ∃ program, next = .finished program := by
  cases s with
  | statement => exact finished_of_beginStatement ht h
  | operator => exact finished_of_afterOperand ht h
  | finished program =>
    cases h
    exact ⟨program, rfl⟩
  | operand => exact absurd h (beginOperand_ne_ok ht)
  | bindName | param =>
    rw [step] at h
    exact absurd h (readName_ne_ok ht)
  | bindSign | testOpen | yesOpen | noOpen | paramsOpen | bodyOpen =>
    exact absurd h (expect_ne_ok ht (by simp))
  | firstArgument | firstItem | entry =>
    rw [step, if_neg (by simp [ht])] at h
    exact absurd h (beginOperand_ne_ok ht)
  | yesDone =>
    rw [step, if_neg (by simp [ht])] at h
    exact finished_of_afterOperand ht h
  | firstParam =>
    rw [step, if_neg (by simp [ht])] at h
    exact absurd h (readName_ne_ok ht)
  | paramDone =>
    rw [step, if_neg (by simp [ht])] at h
    exact absurd h (expect_ne_ok ht (by simp))

/-- Nothing is read after the program. -/
theorem Leads.finished {program done : List Stmt} {ts : List Token} :
    (State.finished done).Leads ts (.finished program) ↔ done = program := by
  induction ts with
  | nil => exact ⟨fun h => by cases h; rfl, fun h => h ▸ .nil⟩
  | cons t ts ih =>
    refine ⟨?_, fun h => .cons rfl (ih.2 h)⟩
    rintro (_ | ⟨hstep, hrest⟩)
    cases hstep
    exact ih.1 hrest

end State

namespace Reading

/-- Errors are not forgotten. -/
theorem errors_foldl (ts : List Token) {r : Reading} (h : r.errors.toList ≠ []) :
    (ts.foldl feed r).errors.toList ≠ [] := by
  induction ts generalizing r with
  | nil => exact h
  | cons t ts ih =>
    refine ih ?_
    unfold feed
    split
    · exact h
    · split
      · exact h
      · simp

/-- A program comes out only if there was no error at all, not even one that was
recovered from. -/
theorem errors_of_result {r : Reading} {program : List Stmt} (h : r.result = .ok program) :
    r.errors.toList = [] := by
  unfold result at h
  split at h
  · assumption
  · cases h

/-- **A program is read if the tokens lead to it.** -/
theorem result_foldl_eq_ok_iff {ts : List Token} {s : State} {program : List Stmt} :
    (ts.foldl feed ⟨some s, #[]⟩).result = .ok program ↔ s.Leads ts (.finished program) := by
  induction ts generalizing s with
  | nil =>
    constructor
    · intro h
      cases s with
      | finished => cases h; exact .nil
      | _ => cases h
    · rintro ⟨⟩
      rfl
  | cons t ts ih =>
    rw [List.foldl_cons, feed]
    dsimp only
    cases hs : s.step t with
    | ok s₁ =>
      refine ih.trans ⟨fun h => .cons hs h, ?_⟩
      rintro (_ | ⟨hstep, hrest⟩)
      rw [hs] at hstep
      cases hstep
      exact hrest
    | error e =>
      constructor
      · intro h
        exact absurd (errors_of_result h) (errors_foldl ts (by simp))
      · rintro (_ | ⟨hstep, hrest⟩)
        rw [hs] at hstep
        cases hstep

end Reading

section

variable {body after : List Token} {stop : Token} {program : List Stmt}

/-- **A program is read if the tokens up to the end of the source lead to
it.** -/
theorem parseTokens_eq_ok_iff (hstop : stop.kind = .eof) :
    parseTokens (body ++ stop :: after) = .ok program ↔
      State.initial.Leads (body ++ [stop]) (.finished program) := by
  unfold parseTokens
  rw [Reading.start, Reading.result_foldl_eq_ok_iff]
  constructor
  · intro h
    obtain ⟨s, hbody, hrest⟩ := h.of_append
    cases hrest with
    | cons hstep hrest =>
      obtain ⟨done, rfl⟩ := State.finished_of_step hstop hstep
      obtain rfl := State.Leads.finished.1 hrest
      exact hbody.append (.cons hstep .nil)
  · intro h
    obtain ⟨s, hbody, hrest⟩ := h.of_append
    cases hrest with
    | cons hstep hnil =>
      cases hnil
      exact hbody.append (.cons hstep (State.Leads.finished.2 rfl))

/-- A program that tokens render is read, but for the spans. -/
theorem Spells.parseTokens (h : Spells (body.map Token.kind) (.stmts program))
    (hstop : stop.kind = .eof) (after : List Token) :
    ∃ read, parseTokens (body ++ stop :: after) = .ok read ∧
      read.map Stmt.bare = program.map Stmt.bare := by
  have hrun : State.initial.bare.Leads ((body ++ [stop]).map Token.bare)
      (.finished (program.map Stmt.bare)) := by
    have hbare : (body ++ [stop]).map Token.bare =
        (body.map Token.kind ++ [TokenKind.eof]).map TokenKind.token := by
      simp [Token.bare, TokenKind.token, hstop]
    have hinitial : State.initial.bare = State.initial := by
      simp [State.initial, State.bare, Level.bare]
    rw [hbare, hinitial]
    exact h.runs
  obtain ⟨s, hleads, hs⟩ := State.Leads.of_bare hrun
  cases s with
  | finished read =>
    exact ⟨read, (parseTokens_eq_ok_iff hstop).2 hleads, State.finished.inj hs⟩
  | _ => simp [State.bare] at hs

/-- **The parser accepts exactly its grammar.** Up to the first end of the
source, tokens are read as a program only if they are a rendering of it; of
whatever program they are a rendering, that program is read, but for its spans.
So they render at most one program but for spans. None of the tokens of a
rendering is a piece of source that is no token. -/
theorem parser_accepts_exactly_its_grammar (hstop : stop.kind = .eof)
    (hbody : ∀ t ∈ body, t.kind ≠ .eof) :
    (∀ program, parseTokens (body ++ stop :: after) = .ok program →
      Spells (body.map Token.kind) (.stmts program)) ∧
    (∀ program, Spells (body.map Token.kind) (.stmts program) →
      ∃ read, parseTokens (body ++ stop :: after) = .ok read ∧
        read.map Stmt.bare = program.map Stmt.bare) ∧
    (∀ program program', Spells (body.map Token.kind) (.stmts program) →
      Spells (body.map Token.kind) (.stmts program') →
      program.map Stmt.bare = program'.map Stmt.bare) ∧
    ∀ program, Spells (body.map Token.kind) (.stmts program) →
      ∀ t ∈ body, ∀ cause, t.kind ≠ .error cause := by
  refine ⟨fun program h => ?_, fun program h => h.parseTokens hstop after, ?_, ?_⟩
  · exact ((parseTokens_eq_ok_iff hstop).1 h).spells hstop hbody
  · intro program program' h h'
    obtain ⟨read, hread, hbare⟩ := h.parseTokens hstop after
    obtain ⟨read', hread', hbare'⟩ := h'.parseTokens hstop after
    cases hread.symm.trans hread'
    exact hbare.symm.trans hbare'
  · intro program h t ht cause hkind
    have hproper := h.all_proper t.kind (List.mem_map_of_mem ht)
    rw [hkind] at hproper
    cases hproper

end

/-- Four statements, between two of which there is a semicolon. The others are
told apart by their first tokens. -/
theorem parser_accepts_exactly_its_grammar_joined :
    let ts := tokens "let f = (fn(x, y) { return -x * y + 1 == 2 }) if (f) { f } f(1)[2]; {1: 2,}"
    let body := ts.dropLast
    let stop : Token := ts.getLast?.getD default
    ts = body ++ [stop] ∧ stop.kind = .eof ∧ (∀ t ∈ body, t.kind ≠ .eof) ∧
      ∃ program, parseTokens (body ++ [stop]) = .ok program ∧
        Spells (body.map Token.kind) (.stmts program) ∧ program.length = 4 := by
  intro ts body stop
  have hstop : stop.kind = .eof := by decide +kernel
  have hbody : ∀ t ∈ body, t.kind ≠ .eof := by decide +kernel
  have hlength : ((parseTokens (body ++ [stop])).toOption.map List.length) = some 4 := by
    decide +kernel
  refine ⟨by decide +kernel, hstop, hbody, ?_⟩
  cases hread : parseTokens (body ++ [stop]) with
  | error errors =>
    rw [hread] at hlength
    cases hlength
  | ok program =>
    rw [hread] at hlength
    exact ⟨program, rfl, (parser_accepts_exactly_its_grammar hstop hbody).1 program hread,
      Option.some.inj hlength⟩

end StackScript
