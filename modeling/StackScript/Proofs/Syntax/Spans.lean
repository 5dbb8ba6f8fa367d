import StackScript.Proofs.Syntax.Completeness
import StackScript.Proofs.Syntax.Nodes
import StackScript.Proofs.Token.Tiling

/-!
# Spans are exact

While a program is read, the span of a node is put together from what is at
hand: the span where the node began, which is a token's or that of a node which
has become the first element, and the span that ends it, which again is a
token's or a node's. Merging the two gives the span of all tokens between them,
because the tokens come in order (`Span.Opens.merge`).

So each construct that is open is described alike, by the span where it began
and the elements that have been read (`Opened`). A token adds an element or
completes a node, and a node that is complete (`Completed`) is an element of the
construct around it, or the first of one that it opens. Each step of the reader
is then one of a few lemmas about open constructs (`State.ReadFrom.step`),
whatever the constructs are.

Main statement: `spans_are_exact`.
-/

namespace StackScript

/-! ## Merging -/

namespace Span

/-- The span of the beginning of some tokens. -/
def Opens (s : Span) (ts : List Token) : Prop := ∃ front back, ts = front ++ back ∧ s.Covers front

theorem covers_token (t : Token) : t.span.Covers [t] := ⟨t, t, rfl, rfl, rfl⟩

variable {s s' : Span} {ts ts' : List Token}

theorem Covers.opens (h : s.Covers ts) : s.Opens ts := ⟨ts, [], by simp, h⟩

theorem Opens.append (h : s.Opens ts) (ts' : List Token) : s.Opens (ts ++ ts') := by
  obtain ⟨front, back, rfl, hfront⟩ := h
  exact ⟨front, back ++ ts', by simp, hfront⟩

/-- **The span where tokens begin and the span that ends them merge to the span
of all.** -/
theorem Opens.merge (h : s.Opens ts) (h' : s'.Covers ts') (hts : InOrder (ts ++ ts')) :
    (s.merge s').Covers (ts ++ ts') := by
  obtain ⟨front, back, rfl, hfront⟩ := h
  obtain ⟨-, ⟨inner, hinner, hstop⟩⟩ := hfront.exists_mem
  obtain ⟨⟨inner', hinner', hstart⟩, -⟩ := h'.exists_mem
  obtain ⟨first, _, hfirst, -, rfl⟩ := hfront
  obtain ⟨_, last, -, hlast, rfl⟩ := h'
  have hwhole : (Span.mk first.span.start last.span.stop).Covers (front ++ back ++ ts') :=
    ⟨first, last, by simp [hfirst], by simp [List.getLast?_append, hlast], rfl⟩
  -- Neither does the second span begin before the first, nor does the first end after the second.
  have hle := (hwhole.within_of_mem hts (t := inner') (by simp [hinner'])).1
  have hle' := (hwhole.within_of_mem hts (t := inner) (by simp [hinner])).2
  rw [← hstart] at hle
  rw [← hstop] at hle'
  unfold Span.merge
  rwa [if_neg (Nat.not_lt.2 hle), if_neg (Nat.not_lt.2 hle')]

end Span

/-! ## Open constructs -/

/-- **A construct is open**: after the tokens of what is around it come those of
the elements that have been read, and the construct began with the given
span. -/
def Opened (start : Span) (es : List Element) (around : List Token → Prop) (ts : List Token) :
    Prop :=
  ∃ before seg, ts = before ++ seg ∧ around before ∧ start.Opens seg ∧ Laid seg es

/-- **A node is complete**: its tokens come after those of what is around it. -/
def Completed (n : Node) (around : List Token → Prop) (ts : List Token) : Prop :=
  ∃ before seg, ts = before ++ seg ∧ around before ∧ Laid seg [.node n]

section

variable {start : Span} {es es' : List Element} {around : List Token → Prop} {ts ts' : List Token}
  {t : Token} {m n : Node}

namespace Opened

/-- A token opens a construct. -/
theorem first (h : around ts) (t : Token) : Opened t.span [.token t.kind] around (ts ++ [t]) :=
  ⟨ts, [t], rfl, h, (Span.covers_token t).opens, .token .nil⟩

/-- More elements are read. -/
theorem append (h : Opened start es around ts) (hes : Laid ts' es') :
    Opened start (es ++ es') around (ts ++ ts') := by
  obtain ⟨before, seg, rfl, hbefore, hstart, hseg⟩ := h
  exact ⟨before, seg ++ ts', by simp, hbefore, hstart.append ts', hseg.append hes⟩

theorem token {k : TokenKind} (h : Opened start es around ts) (ht : t.kind = k) :
    Opened start (es ++ [.token k]) around (ts ++ [t]) :=
  ht ▸ h.append (.token .nil)

theorem cast (h : Opened start es around ts) (hes : es' = es) : Opened start es' around ts :=
  hes ▸ h

theorem mono (h : Opened start es around ts) (hes : ∀ seg, Laid seg es → Laid seg es') :
    Opened start es' around ts := by
  obtain ⟨before, seg, rfl, hbefore, hstart, hseg⟩ := h
  exact ⟨before, seg, rfl, hbefore, hstart, hes seg hseg⟩

/-- **The last elements complete a node.** -/
theorem complete {s : Span} (h : Opened start es around ts) (hes : Laid ts' es') (hs : s.Covers ts')
    (helements : n.elements = es ++ es') (hspan : n.span = start.merge s)
    (hts : InOrder (ts ++ ts')) :
    Completed n around (ts ++ ts') := by
  obtain ⟨before, seg, rfl, hbefore, hstart, hseg⟩ := h
  rw [List.append_assoc] at hts ⊢
  have hcovers : n.span.Covers (seg ++ ts') := by
    rw [hspan]
    exact hstart.merge hs hts.right
  exact ⟨before, seg ++ ts', rfl, hbefore, .single (helements ▸ hseg.append hes) hcovers⟩

/-- A token completes a node. -/
theorem close (h : Opened start es around ts) (helements : n.elements = es ++ [.token t.kind])
    (hspan : n.span = start.merge t.span) (hts : InOrder (ts ++ [t])) :
    Completed n around (ts ++ [t]) :=
  h.complete (.token .nil) (Span.covers_token t) helements hspan hts

end Opened

namespace Completed

/-- A token is a node. -/
theorem token (h : around ts) (helements : n.elements = [.token t.kind]) (hspan : n.span = t.span) :
    Completed n around (ts ++ [t]) :=
  ⟨ts, [t], rfl, h, .single (helements ▸ .token .nil) (hspan ▸ Span.covers_token t)⟩

/-- A node opens a construct that it is the first element of. -/
theorem opened (h : Completed n around ts) : Opened n.span [.node n] around ts := by
  obtain ⟨before, seg, rfl, hbefore, hn⟩ := h
  exact ⟨before, seg, rfl, hbefore, hn.covers.opens, hn⟩

/-- A node is one more element of the construct around it. -/
theorem join (h : Completed n (Opened start es around) ts) :
    Opened start (es ++ [.node n]) around ts := by
  obtain ⟨before, seg, rfl, hbefore, hn⟩ := h
  exact hbefore.append hn

/-- **A node completes the node that it is the last element of.** -/
theorem apply (h : Completed m (Opened start es around) ts)
    (helements : n.elements = es ++ [.node m]) (hspan : n.span = start.merge m.span)
    (hts : InOrder ts) : Completed n around ts := by
  obtain ⟨before, seg, rfl, hbefore, hm⟩ := h
  exact hbefore.complete hm hm.covers helements hspan hts

/-- A node is the only element of another. -/
theorem only (h : Completed m around ts) (helements : n.elements = [.node m])
    (hspan : n.span = m.span) : Completed n around ts := by
  obtain ⟨before, seg, rfl, hbefore, hm⟩ := h
  exact ⟨before, seg, rfl, hbefore, .single (helements ▸ hm) (hspan ▸ hm.covers)⟩

variable {e : Expr}

theorem named (h : Completed (.expr e) around ts) (name : String) :
    Completed (.expr (e.named name)) around ts := by
  obtain ⟨before, seg, rfl, hbefore, he⟩ := h
  exact ⟨before, seg, rfl, hbefore, he.named name⟩

/-- Parentheses are put around an expression. -/
theorem parens (h : Completed (.expr e) (Opened start [.token .parenOpen] around) ts)
    (ht : t.kind = .parenClose) (hts : InOrder (ts ++ [t])) :
    Completed (.expr (e.withSpan (start.merge t.span))) around (ts ++ [t]) := by
  obtain ⟨_, seg, rfl, ⟨before, _, rfl, hbefore, hstart, hopen⟩, he⟩ := h
  obtain ⟨t', _, rfl, ht', hnil⟩ := hopen.of_token
  obtain rfl := hnil.eq_nil
  simp only [List.append_assoc] at hts ⊢
  have hinner : InOrder ([t'] ++ seg ++ [t]) := hts.sublist (by simp)
  exact ⟨before, t' :: (seg ++ [t]), rfl, hbefore,
    he.parens ht' ht ((hstart.append seg).merge (Span.covers_token t) hinner)⟩

end Completed

/-- A name that is bound is one more element. -/
theorem Opened.binder {name : String} (h : Opened start es around ts)
    (ht : t.kind = .identifier name) :
    Opened start (es ++ [.node (.binder ⟨name, t.span⟩)]) around (ts ++ [t]) := by
  have hname : Completed (.binder ⟨name, t.span⟩) (Opened start es around) (ts ++ [t]) :=
    .token h (by simp [Node.elements, ht]) rfl
  exact hname.join

end

/-! ## What is open -/

/-- The span where a waiting operator's expression begins. -/
def Pending.start : Pending → Span
  | unary _ start => start
  | binary _ left => left.span

/-- What has been read of a waiting operator's expression. -/
def Pending.elements : Pending → List Element
  | unary op _ => [.token op.kind]
  | binary op left => [.node (.expr left), .token op.kind]

/-- The span where the owner of a block begins. -/
def Owner.start : Owner → Span
  | yes start _ | no start _ _ | function start _ => start

/-- What has been read of the owner of a block, up to the block. -/
def Owner.elements : Owner → List Element
  | yes _ test => [.token .ifWord, .token .parenOpen, .node (.expr test), .token .parenClose]
  | no _ test block =>
    [.token .ifWord, .token .parenOpen, .node (.expr test), .token .parenClose,
      .node (.block block), .token .elseWord]
  | function _ params =>
    .token .fnWord :: .token .parenOpen :: (Element.separated (Element.ofParams params) ++
      [.token .parenClose])

/-- Operators wait, the newest first, in a construct. -/
def Pending.ReadFrom (pending : List Pending) (around : List Token → Prop) : List Token → Prop :=
  pending.foldr (fun p around => Opened p.start p.elements around) around

mutual

/-- **The tokens that a sequence of statements has been read from**, and what is
around it. -/
def Level.ReadFrom : Level → List Token → Prop
  | .program done => fun ts => Laid ts (Element.ofStmts done.reverse)
  | .block owner brace done outer =>
    Opened brace (.token .braceOpen :: Element.ofStmts done.reverse)
      (Opened owner.start owner.elements outer.ReadFrom)

/-- **The tokens that a construct has been read from**, and what is around
it. -/
def Context.ReadFrom : Context → List Token → Prop
  | .statement level => level.ReadFrom
  | .bindValue start name level =>
    Opened start [.token .letWord, .node (.binder name), .token .assign] level.ReadFrom
  | .retValue start level => Opened start [.token .returnWord] level.ReadFrom
  | .group start outer => Opened start [.token .parenOpen] outer.ReadFrom
  | .argument callee done outer =>
    Opened callee.span (.node (.expr callee) :: .token .parenOpen ::
      Element.followed (Element.ofExprs done.reverse)) outer.ReadFrom
  | .lookup container outer =>
    Opened container.span [.node (.expr container), .token .bracketOpen] outer.ReadFrom
  | .item start done outer =>
    Opened start (.token .bracketOpen :: Element.followed (Element.ofExprs done.reverse))
      outer.ReadFrom
  | .key start done outer =>
    Opened start (.token .braceOpen :: Element.followed (Element.ofEntries done.reverse))
      outer.ReadFrom
  | .value start done key outer =>
    Opened start (.token .braceOpen :: (Element.followed (Element.ofEntries done.reverse) ++
      [.node (.expr key), .token .colon])) outer.ReadFrom
  | .test start outer => Opened start [.token .ifWord, .token .parenOpen] outer.ReadFrom

/-- **The tokens that led to a place.** -/
def Place.ReadFrom : Place → List Token → Prop
  | .mk pending context => Pending.ReadFrom pending context.ReadFrom

end

/-- **The tokens that led to a state**, divided among all that is open. -/
def State.ReadFrom (ts : List Token) : State → Prop
  | statement level => level.ReadFrom ts
  | bindName start level => Opened start [.token .letWord] level.ReadFrom ts
  | bindSign start name level =>
    Opened start [.token .letWord, .node (.binder name)] level.ReadFrom ts
  | operand place => place.ReadFrom ts
  | operator e place => Completed (.expr e) place.ReadFrom ts
  | firstArgument callee place =>
    Opened callee.span [.node (.expr callee), .token .parenOpen] place.ReadFrom ts
  | firstItem start place => Opened start [.token .bracketOpen] place.ReadFrom ts
  | entry start done place =>
    Opened start (.token .braceOpen :: Element.followed (Element.ofEntries done.reverse))
      place.ReadFrom ts
  | testOpen start place => Opened start [.token .ifWord] place.ReadFrom ts
  | yesOpen start test place => Opened start (Owner.yes start test).elements place.ReadFrom ts
  | yesDone start test yes place =>
    Completed (.block yes) (Opened start (Owner.yes start test).elements place.ReadFrom) ts
  | noOpen start test yes place =>
    Opened start (Owner.no start test yes).elements place.ReadFrom ts
  | paramsOpen start place => Opened start [.token .fnWord] place.ReadFrom ts
  | firstParam start place => Opened start [.token .fnWord, .token .parenOpen] place.ReadFrom ts
  | param start done place =>
    Opened start (.token .fnWord :: .token .parenOpen ::
      Element.followed (Element.ofParams done.reverse)) place.ReadFrom ts
  | paramDone start done place => ∃ x rest, done = x :: rest ∧
    Opened start (.token .fnWord :: .token .parenOpen ::
      (Element.followed (Element.ofParams rest.reverse) ++ [.node (.binder x)])) place.ReadFrom ts
  | bodyOpen start params place =>
    Opened start (Owner.function start params).elements place.ReadFrom ts
  | finished program => ∃ body stop, ts = body ++ [stop] ∧ stop.kind = .eof ∧
    Laid body (Element.ofStmts program)

/-! ## Steps -/

section

variable {ts : List Token} {t : Token} {level : Level} {place : Place} {context : Context}
  {e : Expr}
  {next : State}

/-- A statement has been read, with or without its semicolon. -/
theorem Level.ReadFrom.push {s : Stmt} {seg : List Token} (h : level.ReadFrom ts)
    (hs : Laid seg [.node (.stmt s), .optional .semicolon]) :
    (level.push s).ReadFrom (ts ++ seg) := by
  have hstmts : ∀ done : List Stmt, Element.ofStmts (s :: done).reverse =
      Element.ofStmts done.reverse ++ [.node (.stmt s), .optional .semicolon] := by
    simp [Element.ofStmts]
  cases level with
  | program done =>
    unfold Level.push Level.ReadFrom
    rw [hstmts]
    exact Laid.append h hs
  | block owner brace done outer =>
    unfold Level.push Level.ReadFrom
    rw [hstmts]
    exact Opened.append h hs

namespace Pending

variable {around : List Token → Prop}

/-- **An operand completes an operator**, without another token. -/
theorem completed_apply {p : Pending}
    (h : Completed (.expr e) (Opened p.start p.elements around) ts) (hts : InOrder ts) :
    Completed (.expr (p.apply e)) around ts := by
  cases p with
  | unary op start => exact h.apply rfl rfl hts
  | binary op left => exact h.apply rfl rfl hts

theorem completed_settle {pending : List Pending} (strength : Nat)
    (h : Completed (.expr e) (Pending.ReadFrom pending around) ts) (hts : InOrder ts) :
    Completed (.expr (settle strength e pending).1)
      (Pending.ReadFrom (settle strength e pending).2 around) ts := by
  induction pending generalizing e with
  | nil => exact h
  | cons p rest ih =>
    rw [settle]
    split
    · exact ih (completed_apply h hts)
    · exact h

end Pending

namespace State

/-- **A token where an operand is wanted.** -/
theorem readFrom_beginOperand (h : place.ReadFrom ts) (hnext : beginOperand place t = .ok next) :
    next.ReadFrom (ts ++ [t]) := by
  have hfirst := Opened.first h t
  have hoperator : ∀ {e : Expr}, e.elements = [.token t.kind] → e.span = t.span →
      (operator e place).ReadFrom (ts ++ [t]) := fun helements hspan => .token h helements hspan
  obtain ⟨kind, span⟩ := t
  cases kind with
  | identifier | number | string | trueWord | falseWord =>
    cases hnext
    exact hoperator rfl rfl
  | bang | minus =>
    cases hnext
    obtain ⟨pending, context⟩ := place
    exact hfirst
  | parenOpen | ifWord | fnWord | bracketOpen | braceOpen =>
    cases hnext
    exact hfirst
  | _ => cases hnext

/-- The beginning of a block. -/
theorem readFrom_beginBlock {owner : Owner}
    (h : Opened owner.start owner.elements place.ReadFrom ts) (ht : t.kind = .braceOpen) :
    (statement (.block owner t.span [] place)).ReadFrom (ts ++ [t]) :=
  (Opened.first h t).cast (by simp [ht, Element.ofStmts])

/-- The end of a block. -/
theorem readFrom_endBlock {owner : Owner} {block : Block}
    (h : Completed (.block block) (Opened owner.start owner.elements place.ReadFrom) ts)
    (hts : InOrder ts) : (endBlock owner block place).ReadFrom ts := by
  cases owner with
  | yes start test => exact h
  | no start test yes => exact h.apply rfl rfl hts
  | function start params =>
    exact h.apply (by simp [Node.elements, Expr.elements, Owner.elements]) rfl hts

/-- **A token where a statement may begin.** -/
theorem readFrom_beginStatement (h : level.ReadFrom ts) (hts : InOrder (ts ++ [t]))
    (hnext : beginStatement level t = .ok next) : next.ReadFrom (ts ++ [t]) := by
  have hfirst := Opened.first h t
  have hstatement : (Place.mk [] (.statement level)).ReadFrom ts := h
  obtain ⟨kind, span⟩ := t
  cases kind with
  | letWord | returnWord =>
    cases hnext
    exact hfirst
  | braceClose =>
    cases level with
    | program => exact readFrom_beginOperand hstatement hnext
    | block owner brace done outer =>
      cases hnext
      exact readFrom_endBlock (Opened.close h rfl rfl hts) hts
  | eof =>
    cases level with
    | program done =>
      cases hnext
      exact ⟨ts, _, rfl, rfl, h⟩
    | block => cases hnext
  | _ => exact readFrom_beginOperand hstatement hnext

/-- **A token after a statement.** -/
theorem readFrom_endStatement {s : Stmt} (h : Completed (.stmt s) level.ReadFrom ts)
    (hts : InOrder (ts ++ [t])) (hnext : endStatement (level.push s) t = .ok next) :
    next.ReadFrom (ts ++ [t]) := by
  obtain ⟨before, seg, rfl, hbefore, hs⟩ := h
  unfold endStatement at hnext
  split at hnext
  · next hkind =>
    cases hnext
    have hsemicolon : Laid [t] [.optional .semicolon] := hkind ▸ .present .nil
    rw [List.append_assoc]
    exact hbefore.push (hs.append hsemicolon)
  · have hpush := hbefore.push (hs.append (.missing .nil))
    rw [List.append_nil] at hpush
    exact readFrom_beginStatement hpush hts hnext

/-- **A token that ends an expression.** -/
theorem readFrom_close (h : Completed (.expr e) context.ReadFrom ts) (hts : InOrder (ts ++ [t]))
    (hnext : close e context t = .ok next) : next.ReadFrom (ts ++ [t]) := by
  cases context with
  | statement level => exact readFrom_endStatement (h.only rfl rfl) hts hnext
  | bindValue start name level =>
    have hvalue := h.named name.name
    exact readFrom_endStatement (hvalue.apply rfl (by simp [Node.span, Stmt.span]) hts.left)
      hts hnext
  | retValue start level => exact readFrom_endStatement (h.apply rfl rfl hts.left) hts hnext
  | group start outer =>
    obtain ⟨hkind, rfl⟩ := eq_of_expect hnext
    exact h.parens hkind hts
  | argument callee done outer =>
    rw [close] at hnext
    split at hnext
    · next hkind =>
      cases hnext
      exact (h.join.token hkind).cast (by simp [Element.ofExprs, Element.followed_concat])
    · obtain ⟨hkind, rfl⟩ := eq_of_expect hnext
      refine h.join.close ?_ rfl hts
      simp [Node.elements, Expr.elements, Element.ofExprs, Element.separated_concat, hkind]
  | lookup container outer =>
    obtain ⟨hkind, rfl⟩ := eq_of_expect hnext
    exact h.join.close (by simp [Node.elements, Expr.elements, hkind]) rfl hts
  | item start done outer =>
    rw [close] at hnext
    split at hnext
    · next hkind =>
      cases hnext
      exact (h.join.token hkind).cast (by simp [Element.ofExprs, Element.followed_concat])
    · obtain ⟨hkind, rfl⟩ := eq_of_expect hnext
      refine h.join.close ?_ rfl hts
      simp [Node.elements, Expr.elements, Element.ofExprs, Element.separated_concat, hkind]
  | key start done outer =>
    obtain ⟨hkind, rfl⟩ := eq_of_expect hnext
    exact (h.join.token hkind).cast (by simp)
  | value start done key outer =>
    rw [close] at hnext
    split at hnext
    · next hkind =>
      cases hnext
      -- The last entry has no comma after it.
      have hclose : Laid [t] [.optional .comma, .token .braceClose] :=
        .missing (hkind ▸ .token .nil)
      refine h.join.complete hclose (Span.covers_token t) ?_ rfl hts
      simp [Node.elements, Expr.elements_map_concat]
    · obtain ⟨hkind, rfl⟩ := eq_of_expect hnext
      exact (h.join.token hkind).cast (by simp [Element.ofEntries, Element.followed_concat])
  | test start outer =>
    obtain ⟨hkind, rfl⟩ := eq_of_expect hnext
    exact h.join.token hkind

/-- **A token after an operand.** -/
theorem readFrom_afterOperand (h : Completed (.expr e) place.ReadFrom ts)
    (hts : InOrder (ts ++ [t])) (hnext : afterOperand e place t = .ok next) :
    next.ReadFrom (ts ++ [t]) := by
  obtain ⟨pending, context⟩ := place
  by_cases ht : t.kind.continues = true
  · rcases TokenKind.cases_of_continues ht with ⟨op, hkind⟩ | hkind | hkind
    · rw [afterOperand_binary _ _ hkind] at hnext
      cases hnext
      exact (Pending.completed_settle op.stratum h hts.left).opened.token hkind
    · rw [afterOperand_call _ hkind] at hnext
      cases hnext
      exact h.opened.token hkind
    · rw [afterOperand_index _ hkind] at hnext
      cases hnext
      exact h.opened.token hkind
  · rw [Bool.not_eq_true] at ht
    rw [afterOperand_close _ _ ht] at hnext
    have hsettled := Pending.completed_settle 1 h hts.left
    rw [Pending.settle_one] at hsettled
    exact readFrom_close hsettled hts hnext

/-- **A brace where a key might have been**: the map is empty, or its last entry
has a comma after it. -/
theorem completed_map {start : Span} {done : List (Expr × Expr)} {around : List Token → Prop}
    (h : Opened start (.token .braceOpen :: Element.followed (Element.ofEntries done.reverse))
      around ts)
    (ht : t.kind = .braceClose) (hts : InOrder (ts ++ [t])) :
    Completed (.expr (.map done.reverse (start.merge t.span))) around (ts ++ [t]) := by
  cases done with
  | nil =>
    refine h.close ?_ rfl hts
    simp [Node.elements, Expr.elements, Element.ofEntries, Element.followed, ht]
  | cons x rest =>
    have hcomma : Opened start
        (.token .braceOpen :: (Element.followed (Element.ofEntries rest.reverse) ++
          [.node (.expr x.1), .token .colon, .node (.expr x.2)]) ++ [.optional .comma])
        around ts := by
      refine h.mono fun seg hseg => Laid.optional ?_
      simpa [Element.ofEntries, Element.followed_concat] using hseg
    exact hcomma.close (by simp [Node.elements, Expr.elements_map_concat, ht]) rfl hts

/-- **A token keeps what has been read divided among all that is open.** -/
theorem ReadFrom.step {s : State} (h : s.ReadFrom ts) (heof : ∀ t ∈ ts, t.kind ≠ .eof)
    (hts : InOrder (ts ++ [t])) (hnext : s.step t = .ok next) : next.ReadFrom (ts ++ [t]) := by
  cases s with
  | statement level => exact readFrom_beginStatement h hts hnext
  | bindName start level =>
    rw [State.step] at hnext
    obtain ⟨name, hkind, rfl⟩ := read_readName hnext
    exact Opened.binder h hkind
  | bindSign start name level =>
    obtain ⟨hkind, rfl⟩ := eq_of_expect hnext
    exact Opened.token h hkind
  | operand place => exact readFrom_beginOperand h hnext
  | operator e place => exact readFrom_afterOperand h hts hnext
  | firstArgument callee place =>
    rw [State.step] at hnext
    split at hnext
    · next hkind =>
      cases hnext
      refine Opened.close h ?_ rfl hts
      simp [Node.elements, Expr.elements, Element.ofExprs, Element.separated, hkind]
    · have hplace : (Place.mk [] (.argument callee [] place)).ReadFrom ts := h
      exact readFrom_beginOperand hplace hnext
  | firstItem start place =>
    rw [State.step] at hnext
    split at hnext
    · next hkind =>
      cases hnext
      refine Opened.close h ?_ rfl hts
      simp [Node.elements, Expr.elements, Element.ofExprs, Element.separated, hkind]
    · have hplace : (Place.mk [] (.item start [] place)).ReadFrom ts := h
      exact readFrom_beginOperand hplace hnext
  | entry start done place =>
    rw [State.step] at hnext
    split at hnext
    · next hkind =>
      cases hnext
      exact completed_map h hkind hts
    · have hplace : (Place.mk [] (.key start done place)).ReadFrom ts := h
      exact readFrom_beginOperand hplace hnext
  | testOpen start place | paramsOpen start place =>
    obtain ⟨hkind, rfl⟩ := eq_of_expect hnext
    exact Opened.token h hkind
  | yesOpen start test place | noOpen start test yes place | bodyOpen start params place =>
    obtain ⟨hkind, rfl⟩ := eq_of_expect hnext
    exact readFrom_beginBlock h hkind
  | yesDone start test yes place =>
    rw [State.step] at hnext
    split at hnext
    · next hkind =>
      cases hnext
      -- The block joins the conditional, which stays open; otherwise it is
      -- complete.
      exact (Completed.join h).token hkind
    · exact readFrom_afterOperand (Completed.apply h rfl rfl hts.left) hts hnext
  | firstParam start place =>
    rw [State.step] at hnext
    split at hnext
    · next hkind =>
      cases hnext
      exact Opened.token h hkind
    · obtain ⟨name, hkind, rfl⟩ := read_readName hnext
      exact ⟨_, [], rfl, Opened.binder h hkind⟩
  | param start done place =>
    rw [State.step] at hnext
    obtain ⟨name, hkind, rfl⟩ := read_readName hnext
    exact ⟨_, done, rfl, Opened.binder h hkind⟩
  | paramDone start done place =>
    obtain ⟨x, rest, rfl, h⟩ := h
    rw [State.step] at hnext
    split at hnext
    · next hkind =>
      cases hnext
      exact (h.token hkind).cast (by simp [Element.ofParams, Element.followed_concat])
    · obtain ⟨hkind, rfl⟩ := eq_of_expect hnext
      exact (h.token hkind).cast (by simp [Owner.elements, Element.ofParams,
        Element.separated_concat])
  | finished program =>
    -- A finished program has the end of the source among its tokens.
    obtain ⟨body, stop, rfl, hstop, -⟩ := h
    exact absurd hstop (heof stop (by simp))

end State

end

/-! ## Runs -/

/-- **Tokens keep what has been read divided**, up to the end of the source. -/
theorem State.Leads.readFrom {s s' : State} {ts ts' : List Token} (h : s.Leads ts' s')
    (hs : s.ReadFrom ts) (heof : ∀ t ∈ ts ++ ts', t.kind ≠ .eof) (hts : InOrder (ts ++ ts')) :
    s'.ReadFrom (ts ++ ts') := by
  induction h generalizing ts with
  | nil => simpa using hs
  | @cons s s₁ s₂ t rest hstep _ ih =>
    rw [List.append_cons] at heof hts ⊢
    have heof' : ∀ u ∈ ts, u.kind ≠ .eof := fun u hu => heof u (by simp [hu])
    exact ih (hs.step heof' hts.left hstep) heof hts

/-- **A program divides the tokens before the end of the source among its
statements.** -/
theorem State.Leads.laid {body : List Token} {stop : Token} {program : List Stmt}
    (h : initial.Leads (body ++ [stop]) (.finished program)) (heof : ∀ t ∈ body, t.kind ≠ .eof)
    (hts : InOrder (body ++ [stop])) : Laid body (Element.ofStmts program) := by
  obtain ⟨s, hbody, hlast⟩ := h.of_append
  cases hlast with
  | cons hstep hnil =>
    cases hnil
    have hinitial : initial.ReadFrom [] := Laid.nil
    have hs := hbody.readFrom hinitial heof hts.left
    obtain ⟨body', stop', heq, -, hlaid⟩ := State.ReadFrom.step hs heof hts hstep
    obtain ⟨rfl, -⟩ := List.append_inj' heq rfl
    exact hlaid

/-! ## Sources -/

/-- **What there is to say of the span of a node.** -/
structure Node.Exact (bytes : List UInt8) (ts : List Token) (n : Node) : Prop where
  /-- It covers the tokens of the node. -/
  covers : ∃ seg, seg <:+: ts ∧ Laid seg [.node n] ∧ n.span.Covers seg
  /-- It is not empty. -/
  nonempty : n.span.start.offset < n.span.stop.offset
  /-- It begins in the line and the column of its offset. -/
  start : n.span.start.Located bytes
  /-- It ends in the line and the column of its offset. -/
  stop : n.span.stop.Located bytes
  /-- The nodes that the node consists of are within it. -/
  within : ∀ c ∈ n.children,
    n.span.start.offset ≤ c.span.start.offset ∧ c.span.stop.offset ≤ n.span.stop.offset
  /-- The nodes that the node consists of stand one after another. -/
  apart : n.children.Pairwise fun a b => a.span.stop.offset ≤ b.span.start.offset

section

variable {before bytes : List UInt8} {ts : List Token} {es : List Element} {n : Node}

theorem Lexer.Tiled.inOrder (h : Tiled before bytes ts) : InOrder ts := by
  refine ⟨h.pairwise, fun t ht => ?_⟩
  obtain ⟨front, lexeme, back, -, hstart, hstop, -⟩ := h.exists_front ht
  simp [hstart, hstop]

/-- **If tokens of a source are divided among elements, the spans of all nodes
are exact.** -/
theorem Laid.exact {stop : Token} (h : Laid ts es) (hn : n.Occurs es)
    (htiled : Lexer.Tiled before bytes (ts ++ [stop])) (heof : ∀ t ∈ ts, t.kind ≠ .eof) :
    n.Exact (before ++ bytes) ts := by
  have hts : InOrder ts := htiled.inOrder.left
  obtain ⟨seg, hseg, hnode⟩ := h.exists_of_occurs hn
  obtain ⟨inner, hinner, helements⟩ := hnode.exists_elements
  have hcovers := hnode.covers
  have hin : InOrder seg := hts.sublist hseg.sublist
  obtain ⟨⟨first, hfirst, hstart⟩, ⟨last, hlast, hstop⟩⟩ := hcovers.exists_mem
  have hmem : ∀ t ∈ seg, t ∈ ts ++ [stop] := fun t ht => List.mem_append_left _ (hseg.subset ht)
  refine ⟨⟨seg, hseg, hnode, hcovers⟩, ?_, ?_, ?_, ?_, ?_⟩
  · -- A node has a token, and that is not empty.
    have hlt := htiled.start_lt_stop (hmem first hfirst) (heof first (hseg.subset hfirst))
    have hle := (hcovers.within_of_mem hin hfirst).2
    rw [hstart]
    omega
  · rw [hstart]
    exact (htiled.located (hmem first hfirst)).1
  · rw [hstop]
    exact (htiled.located (hmem last hlast)).2
  · intro c hc
    obtain ⟨part, hpart, hchild⟩ := helements.exists_of_occurs (.here (Element.mem_of_filterMap hc))
    exact hcovers.within hin hchild.covers (hpart.trans hinner)
  · exact helements.pairwise_nodes (hin.sublist hinner.sublist)

end

/-- **The spans of a program are exact and nested.** The tokens of a source that
can be read, but for the end of the source, are divided among the nodes of the
program, and the span of each node is from the beginning of its first token to
the end of its last. Both positions are in the line and the column of their
offsets. The nodes that a node consists of are within it, one after another, and
so are the statements of the program. -/
theorem spans_are_exact {source : String} {program : List Stmt} (h : parse source = .ok program) :
    ∃ body stop, tokens source = body ++ [stop] ∧ stop.kind = .eof ∧
      Laid body (Element.ofStmts program) ∧
      (∀ n : Node, n.Occurs (Element.ofStmts program) → n.Exact source.toUTF8.data.toList body) ∧
      program.Pairwise fun a b => a.span.stop.offset ≤ b.span.start.offset := by
  have htiled := Lexer.tiled_tokens source
  obtain ⟨body, stop, heq, hstop, hbody⟩ := htiled.exists_stop
  have heof : stop.kind = .eof := by rw [hstop]
  unfold parse at h
  rw [heq] at h htiled
  have hlaid := ((parseTokens_eq_ok_iff heof).1 h).laid hbody htiled.inOrder
  refine ⟨body, stop, heq, heof, hlaid, fun n hn => hlaid.exact hn htiled hbody, ?_⟩
  have hpairwise := hlaid.pairwise_nodes htiled.inOrder.left
  rw [Element.filterMap_ofStmts, List.pairwise_map] at hpairwise
  exact hpairwise

/-- The value has parentheses around it and goes over two lines. Its span begins
and ends with them. -/
theorem spans_are_exact_grouped :
    let source := "let m = \x7ba: (b +\nc),\x7d; (m)"
    let program := (parse source).toOption.getD []
    let parts := ((program.map Node.stmt).flatMap Node.children).flatMap Node.children
    parse source = .ok program ∧
      parts.map Node.span = [⟨⟨9, 1, 10⟩, ⟨10, 1, 11⟩⟩, ⟨⟨12, 1, 13⟩, ⟨19, 2, 3⟩⟩] ∧
      ∃ body stop, tokens source = body ++ [stop] ∧ Laid body (Element.ofStmts program) ∧
        (∀ n ∈ parts, n.Exact source.toUTF8.data.toList body) ∧
        program.Pairwise fun a b => a.span.stop.offset ≤ b.span.start.offset := by
  intro source program parts
  have hok : (parse source).isOk = true := by decide +kernel
  have hread : parse source = .ok program := by
    cases h : parse source with
    | ok => simp [program, h, Except.toOption]
    | error =>
      rw [h] at hok
      cases hok
  obtain ⟨body, stop, heq, -, hlaid, hexact, hpairwise⟩ := spans_are_exact hread
  refine ⟨hread, by decide +kernel, body, stop, heq, hlaid, fun n hn => hexact n ?_, hpairwise⟩
  obtain ⟨m, hm, hn⟩ := List.mem_flatMap.1 hn
  obtain ⟨s, hs, hm⟩ := List.mem_flatMap.1 hm
  rw [← Element.filterMap_ofStmts] at hs
  exact .deeper (Element.mem_of_filterMap hs) (.deeper (Element.mem_of_filterMap hm)
    (.here (Element.mem_of_filterMap hn)))

end StackScript
