import StackScript.Proofs.Syntax.Grammar

/-!
# Nodes and their tokens

The **nodes** of a program are its statements, blocks and expressions, and the
names where they are bound. Each consists of **elements**, in the order of the
source: tokens that are always the same, and other nodes (`Node.elements`).
`Laid` says how tokens are divided among elements, and asks of each node that
its span be that of its tokens: from the beginning of the first to the end of
the last.

Parentheses around an expression are no element of anything. They leave no node,
but the span of the node inside is then from parenthesis to parenthesis. So
there are two rules for a node, and a node with parentheses around it has the
tokens of the node without them and two more. A semicolon, in contrast, is an
element of what the statement stands in, and not of the statement.

Which operators bind more tightly is not said here: of all ways to read the
tokens, a program is one, and its spans are right if its tokens can be divided
among its nodes at all.

What follows is proved for all nodes at once, because it does not depend on what
a node consists of: the tokens of a node are a stretch of the tokens around it
(`Laid.exists_of_occurs`), and of the tokens of two nodes beside each other, all
of the first come before those of the second (`Laid.pairwise_nodes`).
-/

namespace StackScript

/-! ## Nodes -/

/-- **A node of a program.** -/
inductive Node where
  /-- A statement. -/
  | stmt (s : Stmt)
  /-- Statements in braces. -/
  | block (b : Block)
  /-- An expression. -/
  | expr (e : Expr)
  /-- A name where it is bound. -/
  | binder (x : Ident)

/-- The span of a node. -/
def Node.span : Node → Span
  | stmt s => s.span
  | block b => b.span
  | expr e => e.span
  | binder x => x.span

/-- **What a node consists of.** -/
inductive Element where
  /-- A token. -/
  | token (kind : TokenKind)
  /-- A token that may be missing. -/
  | optional (kind : TokenKind)
  /-- A node. -/
  | node (n : Node)

namespace Element

/-- The node that an element is. -/
def node? : Element → Option Node
  | node n => some n
  | _ => none

/-- Lists of elements with commas between them. -/
def separated : List (List Element) → List Element
  | [] => []
  | [es] => es
  | es :: es' :: rest => es ++ token .comma :: separated (es' :: rest)

/-- Lists of elements with a comma after each. -/
def followed (ess : List (List Element)) : List Element := ess.flatMap (· ++ [token .comma])

/-- Expressions, each by itself. -/
def ofExprs (es : List Expr) : List (List Element) := es.map fun e => [node (.expr e)]

/-- Parameters, each by itself. -/
def ofParams (xs : List Ident) : List (List Element) := xs.map fun x => [node (.binder x)]

/-- The entries of a map. -/
def ofEntries (xs : List (Expr × Expr)) : List (List Element) :=
  xs.map fun x => [node (.expr x.1), token .colon, node (.expr x.2)]

/-- **Statements one after another**, with or without their semicolons. -/
def ofStmts (ss : List Stmt) : List Element :=
  ss.flatMap fun s => [node (.stmt s), optional .semicolon]

/-- The nodes among statements are the statements. -/
theorem filterMap_ofStmts (ss : List Stmt) : (ofStmts ss).filterMap node? = ss.map Node.stmt := by
  induction ss with
  | nil => rfl
  | cons s ss ih => exact congrArg (Node.stmt s :: ·) ih

/-- One more item comes after all others with their commas. -/
theorem separated_concat (ess : List (List Element)) (es : List Element) :
    separated (ess ++ [es]) = followed ess ++ es := by
  induction ess with
  | nil => rfl
  | cons first rest ih =>
    cases rest with
    | nil => simp [separated, followed]
    | cons second rest =>
      rw [List.cons_append, List.cons_append, separated, ← List.cons_append, ih]
      simp [followed]

/-- A comma behind the last item makes it one of those with commas. With the
last lemma, a list is read item by item. -/
theorem followed_concat (ess : List (List Element)) (es : List Element) :
    followed (ess ++ [es]) = followed ess ++ (es ++ [token .comma]) := by
  simp [followed]

end Element

/-- What an expression consists of, but for parentheses around it. -/
def Expr.elements : Expr → List Element
  | ident name _ => [.token (.identifier name)]
  | number value _ => [.token (.number value)]
  | boolean value _ => [.token (.ofBool value)]
  | string value _ => [.token (.string value)]
  | unary op operand _ => [.token op.kind, .node (.expr operand)]
  | binary op left right _ => [.node (.expr left), .token op.kind, .node (.expr right)]
  | cond test yes none _ =>
    [.token .ifWord, .token .parenOpen, .node (.expr test), .token .parenClose, .node (.block yes)]
  | cond test yes (some no) _ =>
    [.token .ifWord, .token .parenOpen, .node (.expr test), .token .parenClose, .node (.block yes),
      .token .elseWord, .node (.block no)]
  | function _ params body _ =>
    .token .fnWord :: .token .parenOpen :: (Element.separated (Element.ofParams params) ++
      [.token .parenClose, .node (.block body)])
  | call callee args _ =>
    .node (.expr callee) :: .token .parenOpen :: (Element.separated (Element.ofExprs args) ++
      [.token .parenClose])
  | array items _ =>
    .token .bracketOpen :: (Element.separated (Element.ofExprs items) ++ [.token .bracketClose])
  | index container key _ =>
    [.node (.expr container), .token .bracketOpen, .node (.expr key), .token .bracketClose]
  | map [] _ => [.token .braceOpen, .token .braceClose]
  | map (x :: xs) _ =>
    .token .braceOpen :: (Element.separated (Element.ofEntries (x :: xs)) ++
      [.optional .comma, .token .braceClose])

/-- What a statement consists of, its semicolon not included. -/
def Stmt.elements : Stmt → List Element
  | bind name value _ =>
    [.token .letWord, .node (.binder name), .token .assign, .node (.expr value)]
  | ret value _ => [.token .returnWord, .node (.expr value)]
  | expr value _ => [.node (.expr value)]

/-- **The elements of a node**, in the order of the source. -/
def Node.elements : Node → List Element
  | stmt s => s.elements
  | block b => .token .braceOpen :: (Element.ofStmts b.body ++ [.token .braceClose])
  | expr e => e.elements
  | binder x => [.token (.identifier x.name)]

/-- **The nodes that a node consists of**, in the order of the source. -/
def Node.children (n : Node) : List Node := n.elements.filterMap Element.node?

/-- **A node occurs among elements**, as one of them or deeper. -/
inductive Node.Occurs (n : Node) : List Element → Prop where
  | here {es : List Element} : .node n ∈ es → Occurs n es
  | deeper {es : List Element} {m : Node} : .node m ∈ es → Occurs n m.elements → Occurs n es

theorem Element.mem_of_filterMap {n : Node} {es : List Element}
    (h : n ∈ es.filterMap Element.node?) :
    .node n ∈ es := by
  obtain ⟨x, hx, hnode⟩ := List.mem_filterMap.1 h
  cases x with
  | node m =>
    cases hnode
    exact hx
  | _ => cases hnode

/-- Where a node occurs among elements, the first of them given. -/
theorem Node.Occurs.of_cons {n : Node} {x : Element} {es : List Element} (h : n.Occurs (x :: es)) :
    x = .node n ∨ (∃ m, x = .node m ∧ n.Occurs m.elements) ∨ n.Occurs es := by
  cases h with
  | here hmem =>
    rcases List.mem_cons.1 hmem with hx | hmem
    · exact .inl hx.symm
    · exact .inr (.inr (.here hmem))
  | @deeper _ m hmem hn =>
    rcases List.mem_cons.1 hmem with hx | hmem
    · exact .inr (.inl ⟨m, hx.symm, hn⟩)
    · exact .inr (.inr (.deeper hmem hn))

/-! ## The tokens of nodes -/

/-- **From the beginning of the first of some tokens to the end of the
last.** -/
def Span.Covers (s : Span) (ts : List Token) : Prop :=
  ∃ first last, ts.head? = some first ∧ ts.getLast? = some last ∧
    s = ⟨first.span.start, last.span.stop⟩

/-- **Tokens divided among elements.** The span of each node covers the tokens
of the node, with the parentheses around it. -/
inductive Laid : List Token → List Element → Prop where
  | nil : Laid [] []
  | token {t : Token} {ts : List Token} {es : List Element} : Laid ts es →
      Laid (t :: ts) (.token t.kind :: es)
  | present {t : Token} {ts : List Token} {es : List Element} : Laid ts es →
      Laid (t :: ts) (.optional t.kind :: es)
  | missing {kind : TokenKind} {ts : List Token} {es : List Element} : Laid ts es →
      Laid ts (.optional kind :: es)
  | node {n : Node} {ts ts' : List Token} {es : List Element} : Laid ts n.elements →
      n.span.Covers ts → Laid ts' es → Laid (ts ++ ts') (.node n :: es)
  | group {e : Expr} {span : Span} {t t' : Token} {ts ts' : List Token} {es : List Element} :
      Laid ts [.node (.expr e)] → t.kind = .parenOpen → t'.kind = .parenClose →
      span.Covers (t :: (ts ++ [t'])) → Laid ts' es →
      Laid (t :: (ts ++ [t']) ++ ts') (.node (.expr (e.withSpan span)) :: es)

namespace Expr

@[simp] theorem elements_withSpan (e : Expr) (s : Span) : (e.withSpan s).elements = e.elements := by
  cases e with
  | cond _ _ no => cases no <;> rfl
  | map entries => cases entries <;> rfl
  | _ => rfl

@[simp] theorem elements_named (e : Expr) (name : String) :
    (e.named name).elements = e.elements := by
  cases e <;> rfl

@[simp] theorem span_named (e : Expr) (name : String) : (e.named name).span = e.span := by
  cases e <;> rfl

@[simp] theorem span_withSpan (e : Expr) (s : Span) : (e.withSpan s).span = s := by
  cases e <;> rfl

/-- The last entry of a map may have a comma after it, and the others have
one. -/
theorem elements_map_concat (xs : List (Expr × Expr)) (x : Expr × Expr) (s : Span) :
    (map (xs ++ [x]) s).elements =
      .token .braceOpen :: (Element.followed (Element.ofEntries xs) ++
        [.node (.expr x.1), .token .colon, .node (.expr x.2), .optional .comma,
          .token .braceClose]) := by
  obtain ⟨first, rest, heq⟩ : ∃ first rest, xs ++ [x] = first :: rest :=
    List.exists_cons_of_ne_nil (by simp)
  rw [heq, elements, ← heq]
  simp [Element.ofEntries, Element.separated_concat]

/-- A function literal may be given its name before or after its span. -/
theorem withSpan_named (e : Expr) (s : Span) (name : String) :
    (e.withSpan s).named name = (e.named name).withSpan s := by
  cases e <;> rfl

end Expr

namespace Laid

variable {ts ts' : List Token} {es es' : List Element} {n : Node} {e : Expr}

/-- No elements have no tokens. -/
theorem eq_nil (h : Laid ts []) : ts = [] := by
  cases h
  rfl

/-- An element that is a token is the first of the tokens. -/
theorem of_token {k : TokenKind} (h : Laid ts (.token k :: es)) :
    ∃ t rest, ts = t :: rest ∧ t.kind = k ∧ Laid rest es := by
  cases h with
  | token h => exact ⟨_, _, rfl, rfl, h⟩

/-- Elements in two parts have the tokens of both. -/
theorem append (h : Laid ts es) (h' : Laid ts' es') : Laid (ts ++ ts') (es ++ es') := by
  induction h with
  | nil => exact h'
  | token _ ih => exact ih.token
  | present _ ih => exact ih.present
  | missing _ ih => exact ih.missing
  | node hn hspan _ _ ih =>
    rw [List.append_assoc]
    exact .node hn hspan ih
  | group he ht ht' hspan _ _ ih =>
    rw [List.append_assoc]
    exact .group he ht ht' hspan ih

/-- A node by itself. -/
theorem single (h : Laid ts n.elements) (hspan : n.span.Covers ts) : Laid ts [.node n] := by
  simpa using Laid.node h hspan .nil

/-- **Parentheses around an expression** leave the node as it is, with a span
that goes from the one to the other. -/
theorem parens {span : Span} {t t' : Token} (h : Laid ts [.node (.expr e)])
    (ht : t.kind = .parenOpen) (ht' : t'.kind = .parenClose)
    (hspan : span.Covers (t :: (ts ++ [t']))) :
    Laid (t :: (ts ++ [t'])) [.node (.expr (e.withSpan span))] := by
  simpa using Laid.group h ht ht' hspan .nil

/-- **The span of a node covers its tokens.** -/
theorem covers (h : Laid ts [.node n]) : n.span.Covers ts := by
  cases h with
  | node hn hspan hrest =>
    obtain rfl := hrest.eq_nil
    simpa using hspan
  | group he ht ht' hspan hrest =>
    obtain rfl := hrest.eq_nil
    simpa [Node.span] using hspan

/-- A token is there whether it may be missing or not. -/
theorem optional {k : TokenKind} (h : Laid ts (es ++ .token k :: es')) :
    Laid ts (es ++ .optional k :: es') := by
  induction es generalizing ts with
  | nil =>
    cases h with
    | token h => exact h.present
  | cons first es ih =>
    cases h with
    | token h => exact (ih h).token
    | present h => exact (ih h).present
    | missing h => exact (ih h).missing
    | node hn hspan h => exact .node hn hspan (ih h)
    | group he ht ht' hspan h => exact .group he ht ht' hspan (ih h)

/-- A function literal has the tokens that it would have without its name. -/
theorem named (h : Laid ts [.node (.expr e)]) (name : String) :
    Laid ts [.node (.expr (e.named name))] := by
  generalize hes : [Element.node (.expr e)] = es at h
  induction h generalizing e with
  | nil | token | present | missing => cases hes
  | node hn hspan hrest =>
    cases hes
    obtain rfl := hrest.eq_nil
    rw [List.append_nil]
    exact single (by simpa [Node.elements] using hn) (by simpa [Node.span] using hspan)
  | group he ht ht' hspan hrest ih =>
    cases hes
    obtain rfl := hrest.eq_nil
    rw [List.append_nil, Expr.withSpan_named]
    exact (ih rfl).parens ht ht' hspan

/-- Inside of the parentheses around a node are the tokens of its elements. -/
theorem exists_elements (h : Laid ts [.node n]) :
    ∃ inner, inner <:+: ts ∧ Laid inner n.elements := by
  generalize hes : [Element.node n] = es at h
  induction h generalizing n with
  | nil | token | present | missing => cases hes
  | node hn _ _ =>
    cases hes
    exact ⟨_, List.infix_append [] _ _, hn⟩
  | @group e span t t' ts ts' es _ _ _ _ _ ih =>
    cases hes
    obtain ⟨inner, hstretch, hinner⟩ := ih rfl
    exact ⟨inner, hstretch.trans ⟨[t], t' :: ts', by simp⟩, by simpa [Node.elements] using hinner⟩

/-- **The tokens of a node that occurs** among elements are a stretch of
theirs. -/
theorem exists_of_occurs (h : Laid ts es) (hn : n.Occurs es) :
    ∃ seg, seg <:+: ts ∧ Laid seg [.node n] := by
  induction h with
  | nil => cases hn <;> contradiction
  | @token t ts _ _ ih | @present t ts _ _ ih =>
    rcases hn.of_cons with hx | ⟨m, hx, -⟩ | hn
    · cases hx
    · cases hx
    · obtain ⟨seg, hstretch, hseg⟩ := ih hn
      exact ⟨seg, hstretch.trans (List.suffix_cons t ts).isInfix, hseg⟩
  | missing _ ih =>
    rcases hn.of_cons with hx | ⟨m, hx, -⟩ | hn
    · cases hx
    · cases hx
    · exact ih hn
  | @node m ts ts' _ hm hspan _ ih₁ ih₂ =>
    rcases hn.of_cons with hx | ⟨m, hx, hn⟩ | hn
    · cases hx
      exact ⟨ts, List.infix_append [] ts ts', hm.single hspan⟩
    · cases hx
      obtain ⟨seg, hstretch, hseg⟩ := ih₁ hn
      exact ⟨seg, hstretch.trans (List.infix_append [] ts ts'), hseg⟩
    · obtain ⟨seg, hstretch, hseg⟩ := ih₂ hn
      exact ⟨seg, hstretch.trans (List.suffix_append ts ts').isInfix, hseg⟩
  | @group e span t t' ts ts' _ he ht ht' hspan _ ih₁ ih₂ =>
    rcases hn.of_cons with hx | ⟨m, hx, hn⟩ | hn
    · cases hx
      exact ⟨t :: (ts ++ [t']), List.infix_append [] _ ts', he.parens ht ht' hspan⟩
    · cases hx
      -- What occurs in the node occurs in it without the parentheses.
      have hinner : n.Occurs [.node (.expr e)] :=
        .deeper List.mem_cons_self (by simpa [Node.elements] using hn)
      obtain ⟨seg, hstretch, hseg⟩ := ih₁ hinner
      exact ⟨seg, hstretch.trans ⟨[t], t' :: ts', by simp⟩, hseg⟩
    · obtain ⟨seg, hstretch, hseg⟩ := ih₂ hn
      exact ⟨seg, hstretch.trans (List.suffix_append _ ts').isInfix, hseg⟩

end Laid

/-! ## Tokens in order -/

/-- **Tokens that stand one after another.** -/
structure InOrder (ts : List Token) : Prop where
  /-- Each ends before the next begins. -/
  pairwise : ts.Pairwise fun a b => a.span.stop.offset ≤ b.span.start.offset
  /-- None ends before it begins. -/
  forward : ∀ t ∈ ts, t.span.start.offset ≤ t.span.stop.offset

namespace InOrder

variable {ts ts' : List Token}

/-- Some of the tokens are in order if all of them are. -/
theorem sublist (h : InOrder ts) (hsub : ts'.Sublist ts) : InOrder ts' :=
  ⟨h.pairwise.sublist hsub, fun t ht => h.forward t (hsub.subset ht)⟩

theorem left (h : InOrder (ts ++ ts')) : InOrder ts := h.sublist (List.sublist_append_left ts ts')

theorem right (h : InOrder (ts ++ ts')) : InOrder ts' :=
  h.sublist (List.sublist_append_right ts ts')

end InOrder

namespace Span.Covers

variable {s s' : Span} {ts ts' : List Token}

/-- A token is within the span that covers it with others. -/
theorem within_of_mem (h : s.Covers ts) (hts : InOrder ts) {t : Token} (ht : t ∈ ts) :
    s.start.offset ≤ t.span.start.offset ∧ t.span.stop.offset ≤ s.stop.offset := by
  obtain ⟨first, last, hfirst, hlast, rfl⟩ := h
  constructor
  · obtain ⟨rest, rfl⟩ := List.head?_eq_some_iff.1 hfirst
    rcases List.mem_cons.1 ht with rfl | ht
    · exact Nat.le_refl _
    · exact Nat.le_trans (hts.forward first List.mem_cons_self)
        ((List.pairwise_cons.1 hts.pairwise).1 t ht)
  · obtain ⟨front, rfl⟩ := List.getLast?_eq_some_iff.1 hlast
    rcases List.mem_append.1 ht with ht | ht
    · have hle := (List.pairwise_append.1 hts.pairwise).2.2 t ht last List.mem_cons_self
      exact Nat.le_trans hle (hts.forward last (by simp))
    · obtain rfl := List.mem_singleton.1 ht
      exact Nat.le_refl _

/-- A span begins where one of its tokens does, and ends where one does. So it
is within every span that holds all of them. -/
theorem exists_mem (h : s.Covers ts) :
    (∃ t ∈ ts, s.start = t.span.start) ∧ ∃ t ∈ ts, s.stop = t.span.stop := by
  obtain ⟨first, last, hfirst, hlast, rfl⟩ := h
  exact ⟨⟨first, List.mem_of_head? hfirst, rfl⟩, ⟨last, List.mem_of_getLast? hlast, rfl⟩⟩

/-- **The span of a stretch of tokens is within that of them all.** -/
theorem within (h : s.Covers ts) (hts : InOrder ts) (h' : s'.Covers ts') (hstretch : ts' <:+: ts) :
    s.start.offset ≤ s'.start.offset ∧ s'.stop.offset ≤ s.stop.offset := by
  obtain ⟨⟨first, hfirst, hstart⟩, ⟨last, hlast, hstop⟩⟩ := h'.exists_mem
  rw [hstart, hstop]
  exact ⟨(h.within_of_mem hts (hstretch.subset hfirst)).1,
    (h.within_of_mem hts (hstretch.subset hlast)).2⟩

end Span.Covers

namespace Laid

variable {ts ts' : List Token} {es : List Element} {n : Node}

/-- A node comes before those after it. -/
theorem stop_le_of_mem (hspan : n.span.Covers ts) (h : Laid ts' es) (hts : InOrder (ts ++ ts'))
    {m : Node} (hm : m ∈ es.filterMap Element.node?) :
    n.span.stop.offset ≤ m.span.start.offset := by
  obtain ⟨seg, hstretch, hseg⟩ := h.exists_of_occurs (.here (Element.mem_of_filterMap hm))
  obtain ⟨-, ⟨last, hlast, hstop⟩⟩ := hspan.exists_mem
  obtain ⟨⟨first, hfirst, hstart⟩, -⟩ := hseg.covers.exists_mem
  rw [hstop, hstart]
  exact (List.pairwise_append.1 hts.pairwise).2.2 last hlast first (hstretch.subset hfirst)

/-- **Nodes beside each other stand one after another.** -/
theorem pairwise_nodes (h : Laid ts es) (hts : InOrder ts) :
    (es.filterMap Element.node?).Pairwise fun a b => a.span.stop.offset ≤ b.span.start.offset := by
  induction h with
  | nil => exact .nil
  | token _ ih | present _ ih => exact ih (hts.sublist (List.sublist_cons_self _ _))
  | missing _ ih => exact ih hts
  | node _ hspan hrest _ ih =>
    exact List.pairwise_cons.2
      ⟨fun _ => stop_le_of_mem hspan hrest hts, ih hts.right⟩
  | @group e span t t' ts ts' es _ _ _ hspan hrest _ ih =>
    have hspan' : (Node.expr (e.withSpan span)).span.Covers (t :: (ts ++ [t'])) := by
      simpa [Node.span] using hspan
    exact List.pairwise_cons.2
      ⟨fun _ => stop_le_of_mem hspan' hrest hts, ih hts.right⟩

end Laid

end StackScript
