import StackScript.Proofs.Syntax.Completeness
import StackScript.Proofs.Token.Tiling

/-!
# Syntax errors

A token is the place of a syntax error if what has been read cannot go on with
it. Two things are said here about where errors lie.

## The first error

The first error lies **at the earliest token possible**. It cannot lie any
earlier: the tokens before it have led to a state of the reader, and every state
can be completed. What completes a state closes all that is open in it, the
innermost construct first (`State.closing`), and depends on nothing else,
neither on the operators that wait nor on what is complete. And it cannot lie
any later: nothing ever looks ahead, so whatever follows the token, the error is
there.

## The other errors

After an error, reading resumes behind the next semicolon. So each error but the
first has a semicolon of its own before it, and no token is the place of two
errors (`Reading.Accounts`).

Main statements: `first_error_is_earliest`, `recovery_makes_progress`.
-/

namespace StackScript

namespace State

/-! ## Closing what is open -/

/-- **The tokens complete what has been read**: with the end of the source after
them, they lead to a program. -/
def Completes (s : State) (ks : List TokenKind) : Prop :=
  ∃ program, s.Runs (ks ++ [.eof]) (.finished program)

/-- Tokens complete a state if, after the first, the others complete the state
it leads to. -/
theorem Completes.cons {s next : State} {k : TokenKind} {ks : List TokenKind}
    (hstep : s.step k.token = .ok next) (h : next.Completes ks) : s.Completes (k :: ks) := by
  obtain ⟨program, hrun⟩ := h
  exact ⟨program, .cons hstep hrun⟩

end State

mutual

/-- The tokens after the last statement of a sequence. -/
def Level.closing : Level → List TokenKind
  | .program _ => []
  | .block _ _ _ outer => .braceClose :: outer.closing

/-- The tokens after the expression that a construct waits for. -/
def Context.closing : Context → List TokenKind
  | .statement level | .bindValue _ _ level | .retValue _ level => .semicolon :: level.closing
  | .group _ outer | .argument _ _ outer => .parenClose :: outer.closing
  | .lookup _ outer | .item _ _ outer => .bracketClose :: outer.closing
  | .key _ _ outer => .colon :: .trueWord :: .braceClose :: outer.closing
  | .value _ _ _ outer => .braceClose :: outer.closing
  | .test _ outer => .parenClose :: .braceOpen :: .braceClose :: outer.closing

/-- **The tokens after an operand** that close all that is open around its
place. -/
def Place.closing : Place → List TokenKind
  | .mk _ context => context.closing

end

namespace State

/-- **Tokens that complete what has been read.** -/
def closing : State → List TokenKind
  | statement level => level.closing
  | bindName _ level => .identifier "x" :: .assign :: .trueWord :: .semicolon :: level.closing
  | bindSign _ _ level => .assign :: .trueWord :: .semicolon :: level.closing
  | operand place => .trueWord :: place.closing
  | operator _ place | yesDone _ _ _ place => place.closing
  | firstArgument _ place => .parenClose :: place.closing
  | firstItem _ place => .bracketClose :: place.closing
  | entry _ _ place => .braceClose :: place.closing
  | testOpen _ place =>
    .parenOpen :: .trueWord :: .parenClose :: .braceOpen :: .braceClose :: place.closing
  | yesOpen _ _ place | noOpen _ _ _ place | bodyOpen _ _ place =>
    .braceOpen :: .braceClose :: place.closing
  | paramsOpen _ place => .parenOpen :: .parenClose :: .braceOpen :: .braceClose :: place.closing
  | firstParam _ place | paramDone _ _ place =>
    .parenClose :: .braceOpen :: .braceClose :: place.closing
  | param _ _ place =>
    .identifier "x" :: .parenClose :: .braceOpen :: .braceClose :: place.closing
  | finished _ => []

variable {s : State} {e : Expr} {pending : List Pending} {context : Context}

/-- A token that ends an expression, where one is awaited. -/
theorem Awaits.close (h : s.Awaits e (.mk pending context)) {k : TokenKind}
    (hk : k.continues = false) (helse : k ≠ .elseWord) :
    s.step k.token = State.close (Pending.settleAll e pending) context k.token := by
  rw [h k.token helse, afterOperand_close _ _ hk]

/-- A state after an operand waits for what follows it, and makes no
exception. -/
theorem awaits_operator (e : Expr) (place : Place) : (operator e place).Awaits e place :=
  fun _ _ => rfl

/-- After a block of any owner, an operand has been read. -/
theorem exists_awaits_endBlock (owner : Owner) (block : Block) (place : Place) :
    ∃ e, (endBlock owner block place).Awaits e place := by
  cases owner with
  | yes start test => exact ⟨_, fun t helse => if_neg helse⟩
  | no | function => exact ⟨_, fun _ _ => rfl⟩

end State

/-- The sequence with other statements before. -/
def Level.withDone (done : List Stmt) : Level → Level
  | program _ => program done
  | block owner brace _ outer => block owner brace done outer

/-- A statement more is other statements before. -/
theorem Level.exists_withDone (s : Stmt) (level : Level) :
    ∃ done, level.push s = level.withDone done := by
  cases level <;> exact ⟨_, rfl⟩

mutual

theorem Level.eof_notMem_closing (level : Level) : .eof ∉ level.closing := by
  cases level with
  | program => simp [Level.closing]
  | block _ _ _ outer => simp [Level.closing, outer.eof_notMem_closing]

theorem Context.eof_notMem_closing (context : Context) : .eof ∉ context.closing := by
  cases context with
  | statement level | bindValue _ _ level | retValue _ level =>
    simp [Context.closing, level.eof_notMem_closing]
  | group _ outer | argument _ _ outer | lookup _ outer | item _ _ outer | key _ _ outer
  | value _ _ _ outer | test _ outer => simp [Context.closing, outer.eof_notMem_closing]

theorem Place.eof_notMem_closing (place : Place) : .eof ∉ place.closing := by
  obtain ⟨pending, context⟩ := place
  simp [Place.closing, context.eof_notMem_closing]

end

/-- What completes a program is not the end of the source. -/
theorem State.eof_notMem_closing (s : State) : .eof ∉ s.closing := by
  cases s <;> simp [closing, Level.eof_notMem_closing, Place.eof_notMem_closing]

open State

mutual

/-- A sequence of statements is closed, whatever statements are in it. -/
theorem Level.completes (level : Level) (done : List Stmt) :
    (State.statement (level.withDone done)).Completes level.closing := by
  cases level with
  | program => exact ⟨_, .single rfl⟩
  | block owner brace _ outer =>
    obtain ⟨e, hawaits⟩ :=
      exists_awaits_endBlock owner (.mk done.reverse (brace.merge default)) outer
    exact .cons rfl (outer.completes hawaits)

/-- A construct is closed after its expression. -/
theorem Context.completes (context : Context) {s : State} {e : Expr} {pending : List Pending}
    (h : s.Awaits e (.mk pending context)) : s.Completes context.closing := by
  cases context with
  | statement level | bindValue _ _ level | retValue _ level =>
    obtain ⟨done, hdone⟩ := level.exists_withDone _
    refine .cons ((h.close rfl (by simp)).trans rfl) ?_
    rw [hdone]
    exact level.completes done
  | group _ outer | argument _ _ outer | lookup _ outer | item _ _ outer | value _ _ _ outer =>
    exact .cons ((h.close rfl (by simp)).trans rfl) (outer.completes (awaits_operator _ _))
  | key _ _ outer =>
    exact .cons ((h.close rfl (by simp)).trans rfl) (.cons rfl (.cons rfl
      (outer.completes (awaits_operator _ _))))
  | test _ outer =>
    obtain ⟨e, hawaits⟩ := exists_awaits_endBlock (.yes _ _) _ outer
    exact .cons ((h.close rfl (by simp)).trans rfl)
      (.cons rfl (.cons rfl (outer.completes hawaits)))

/-- **All that is open around the place of an operand is closed after it.** -/
theorem Place.completes (place : Place) {s : State} {e : Expr} (h : s.Awaits e place) :
    s.Completes place.closing := by
  obtain ⟨pending, context⟩ := place
  exact context.completes h

end

namespace State

variable {s next : State} {t : Token} {e : Expr} {place : Place}

/-- An empty block is read, and then all that is open is closed. -/
theorem completes_block (owner : Owner)
    (h : s.step TokenKind.braceOpen.token = .ok (.statement (.block owner default [] place))) :
    s.Completes (.braceOpen :: .braceClose :: place.closing) := by
  obtain ⟨e, hawaits⟩ := exists_awaits_endBlock owner (.mk [] (Span.merge default default)) place
  exact .cons h (.cons rfl (place.completes hawaits))

/-- The value of a binding is read, and then all that is open is closed. -/
theorem completes_bindSign (start : Span) (name : Ident) (level : Level) :
    (bindSign start name level).Completes (.assign :: .trueWord :: .semicolon :: level.closing) :=
  .cons rfl (.cons rfl ((Context.bindValue start name level).completes
    (awaits_operator _ (.mk [] _))))

/-- **Whatever has been read can be completed.** -/
theorem completes (s : State) : s.Completes s.closing := by
  cases s with
  | statement level =>
    cases level with
    | program done => exact (Level.program done).completes done
    | block owner brace done outer => exact (Level.block owner brace done outer).completes done
  | bindName start level => exact .cons rfl (completes_bindSign start _ level)
  | bindSign start name level => exact completes_bindSign start name level
  | operand place => exact .cons rfl (place.completes (awaits_operator _ _))
  | operator e place => exact place.completes (awaits_operator e place)
  | firstArgument _ place | firstItem _ place | entry _ _ place =>
    exact .cons rfl (place.completes (awaits_operator _ _))
  | testOpen start place =>
    exact .cons rfl (.cons rfl
      ((Context.test start place).completes (awaits_operator _ (.mk [] _))))
  | yesDone start test yes place => exact place.completes fun _ helse => if_neg helse
  | yesOpen start test place => exact completes_block (.yes start test) rfl
  | noOpen start test yes place => exact completes_block (.no start test yes) rfl
  | bodyOpen start params place => exact completes_block (.function start params) rfl
  | paramsOpen start place => exact .cons rfl (.cons rfl (completes_block (.function start []) rfl))
  | firstParam start place => exact .cons rfl (completes_block (.function start []) rfl)
  | param start done place => exact .cons rfl (.cons rfl (completes_block (.function start _) rfl))
  | paramDone start done place =>
    exact .cons rfl (completes_block (.function start done.reverse) rfl)
  | finished program => exact ⟨program, .single rfl⟩

/-! ## The token of an error -/

/-- **An error is about the token that was read.** -/
def Blames (t : Token) : Except ParseError State → Prop
  | .ok _ => True
  | .error e => e.found = t

/-- A token that has to be there and is not is blamed. The lemmas that follow
say the same of everything that a state may do with a token. -/
theorem blames_expect (kind : TokenKind) (t : Token) (next : State) :
    Blames t (expect kind t next) := by
  unfold expect
  split
  · trivial
  · rfl

theorem blames_beginOperand (place : Place) (t : Token) : Blames t (beginOperand place t) := by
  unfold beginOperand
  split <;> trivial

theorem blames_readName (t : Token) (f : Ident → State) : Blames t (readName t f) := by
  unfold readName
  split
  · trivial
  · rfl

theorem blames_beginStatement (level : Level) (t : Token) : Blames t (beginStatement level t) := by
  unfold beginStatement
  split <;> first | trivial | rfl | exact blames_beginOperand _ t

theorem blames_endStatement (level : Level) (t : Token) : Blames t (endStatement level t) := by
  unfold endStatement
  split
  · trivial
  · exact blames_beginStatement level t

theorem blames_close (e : Expr) (context : Context) (t : Token) : Blames t (close e context t) := by
  cases context with
  | statement | bindValue | retValue => exact blames_endStatement _ t
  | group | lookup | key | test => exact blames_expect _ t _
  | argument | item | value =>
    rw [close]
    split
    · trivial
    · exact blames_expect _ t _

theorem blames_afterOperand (e : Expr) (place : Place) (t : Token) :
    Blames t (afterOperand e place t) := by
  obtain ⟨pending, context⟩ := place
  by_cases hcontinues : t.kind.continues = true
  · rcases TokenKind.cases_of_continues hcontinues with ⟨op, hkind⟩ | hkind | hkind
    · rw [afterOperand_binary _ _ hkind]
      trivial
    · rw [afterOperand_call _ hkind]
      trivial
    · rw [afterOperand_index _ hkind]
      trivial
  · rw [afterOperand_close _ _ (by simpa using hcontinues)]
    exact blames_close _ context t

/-- **A token is the place of its error.** -/
theorem blames_step (s : State) (t : Token) : Blames t (s.step t) := by
  cases s with
  | statement level => exact blames_beginStatement level t
  | operand place => exact blames_beginOperand place t
  | operator e place => exact blames_afterOperand e place t
  | bindName | param =>
    rw [step]
    exact blames_readName t _
  | bindSign | testOpen | yesOpen | noOpen | paramsOpen | bodyOpen => exact blames_expect _ t _
  | firstArgument | firstItem | entry =>
    rw [step]
    split
    · trivial
    · exact blames_beginOperand _ t
  | yesDone =>
    rw [step]
    split
    · trivial
    · exact blames_afterOperand _ _ t
  | firstParam =>
    rw [step]
    split
    · trivial
    · exact blames_readName t _
  | paramDone =>
    rw [step]
    split
    · trivial
    · exact blames_expect _ t _
  | finished => trivial

/-- **An error is about the token that was read.** Tokens that are read without
error are never blamed later. -/
theorem found_of_step {s : State} {t : Token} {e : ParseError} (h : s.step t = .error e) :
    e.found = t := by
  have hblames := blames_step s t
  rwa [h] at hblames

end State

/-! ## Where errors lie -/

/-- **Errors are accounted for by the tokens read**: they are about tokens in
the order of reading, no two about one token, and each but the first has a
semicolon before it. -/
structure Reading.Accounts (ts : List Token) (r : Reading) : Prop where
  /-- No token is the place of two errors. -/
  found : (r.errors.toList.map ParseError.found).Sublist ts
  /-- While the rest of a statement is skipped, the semicolon of its error is
  still to come. -/
  length : r.errors.toList.length ≤
    (ts.map Token.kind).count .semicolon + if r.state.isSome then 0 else 1
  /-- Only after an error is anything skipped. -/
  skipping : r.state = none → r.errors.toList ≠ []

namespace Reading

variable {r : Reading} {s next : State} {t : Token} {ts : List Token} {errors : Array ParseError}
  {e : ParseError}

/-- A token that fits leads on. -/
theorem feed_of_ok (h : s.step t = .ok next) : feed ⟨some s, errors⟩ t = ⟨some next, errors⟩ := by
  simp [feed, h]

/-- A token that does not is recorded as an error, and reading resumes behind
the next semicolon, which may be this very token. -/
theorem feed_of_error (h : s.step t = .error e) :
    feed ⟨some s, errors⟩ t = ⟨resume t, errors.push e⟩ := by
  simp [feed, h]

/-- A semicolon ends the skipping. -/
theorem count_resume (ts : List Token) (t : Token) :
    (((ts ++ [t]).map Token.kind).count .semicolon + if (resume t).isSome then 0 else 1) =
      (ts.map Token.kind).count .semicolon + 1 := by
  unfold resume
  split
  · next hkind => simp [hkind]
  · next hkind => simp [hkind]

theorem accounts_start : start.Accounts [] := ⟨by simp [start], by simp [start], nofun⟩

/-- A token keeps errors accounted for. -/
theorem Accounts.feed (h : r.Accounts ts) (t : Token) : (r.feed t).Accounts (ts ++ [t]) := by
  obtain ⟨state, errors⟩ := r
  obtain ⟨hfound, hlength, hskipping⟩ := h
  dsimp only at hfound hlength hskipping
  have hkeep : (errors.toList.map ParseError.found).Sublist (ts ++ [t]) :=
    hfound.trans (List.sublist_append_left ts [t])
  cases state with
  | none =>
    have herrors : errors.toList.length ≤ (ts.map Token.kind).count .semicolon + 1 := by
      simpa using hlength
    exact ⟨hkeep, (count_resume ts t).symm ▸ herrors, fun _ => hskipping rfl⟩
  | some s =>
    have herrors : errors.toList.length ≤ (ts.map Token.kind).count .semicolon := by
      simpa using hlength
    cases hstep : s.step t with
    | ok next =>
      rw [feed_of_ok hstep]
      refine ⟨hkeep, ?_, nofun⟩
      rw [List.map_append, List.count_append]
      exact Nat.le_add_right_of_le (Nat.le_add_right_of_le herrors)
    | error e =>
      rw [feed_of_error hstep]
      obtain rfl := State.found_of_step hstep
      refine ⟨?_, ?_, by simp⟩
      · simpa using hfound
      · rw [count_resume]
        simpa using herrors

/-- **Errors are accounted for after any number of tokens.** This is the step of
one token, repeated. -/
theorem Accounts.foldl (h : r.Accounts ts) (more : List Token) :
    (more.foldl Reading.feed r).Accounts (ts ++ more) := by
  induction more generalizing r ts with
  | nil => simpa using h
  | cons t more ih => simpa using ih (h.feed t)

/-- Errors stay in their order. -/
theorem exists_errors_foldl (ts : List Token) (r : Reading) :
    ∃ more, (ts.foldl feed r).errors.toList = r.errors.toList ++ more := by
  induction ts generalizing r with
  | nil => exact ⟨[], by simp⟩
  | cons t ts ih =>
    obtain ⟨more, heq⟩ := ih (r.feed t)
    obtain ⟨state, errors⟩ := r
    rw [List.foldl_cons, heq]
    cases state with
    | none => exact ⟨more, rfl⟩
    | some s =>
      cases hstep : s.step t with
      | ok next => exact ⟨more, by rw [feed_of_ok hstep]⟩
      | error e => exact ⟨e :: more, by simp [feed_of_error hstep]⟩

/-- What is reported is what has been recorded. -/
theorem errors_of_result_eq_error {errors : List ParseError} (h : r.result = .error errors) :
    r.errors.toList = errors := by
  unfold result at h
  split at h
  · cases h
  · exact Except.error.inj h

/-- **At the end of the source there is an error, or the program is
complete.** -/
theorem result_feed_eof (h : r.Accounts ts) (ht : t.kind = .eof) :
    (∃ program, (r.feed t).result = .ok program) ∨
    ∃ e errors, (r.feed t).result = .error (e :: errors) := by
  cases herrors : (r.feed t).errors.toList with
  | cons e errors => exact .inr ⟨e, errors, by simp [result, herrors]⟩
  | nil =>
    obtain ⟨state, errors⟩ := r
    cases state with
    | none => exact absurd herrors (h.skipping rfl)
    | some s =>
      cases hstep : s.step t with
      | error e => simp [feed_of_error hstep] at herrors
      | ok next =>
        obtain ⟨program, rfl⟩ := State.finished_of_step ht hstep
        rw [feed_of_ok hstep] at herrors ⊢
        exact .inl ⟨program, by rw [result, herrors]⟩

/-- **The first error is that of a token which what has been read cannot go on
with.** -/
theorem exists_leads_of_errors {errors : List ParseError}
    (h : (ts.foldl feed ⟨some s, #[]⟩).errors.toList = e :: errors) :
    ∃ before after s', ts = before ++ e.found :: after ∧ s.Leads before s' ∧
      s'.step e.found = .error e := by
  induction ts generalizing s with
  | nil => cases h
  | cons t ts ih =>
    rw [List.foldl_cons] at h
    cases hstep : s.step t with
    | ok next =>
      rw [feed_of_ok hstep] at h
      obtain ⟨before, after, s', rfl, hleads, herror⟩ := ih h
      exact ⟨t :: before, after, s', rfl, .cons hstep hleads, herror⟩
    | error e' =>
      obtain ⟨more, heq⟩ := exists_errors_foldl ts (feed ⟨some s, #[]⟩ t)
      rw [heq, feed_of_error hstep] at h
      obtain ⟨rfl, -⟩ : e' = e ∧ more = errors := by simpa using h
      obtain rfl := State.found_of_step hstep
      exact ⟨[], ts, s, rfl, .nil, hstep⟩

end Reading

namespace State.Leads

variable {s s₁ s₂ : State} {ts : List Token}

/-- Tokens lead to one state only. -/
theorem unique (h₁ : s.Leads ts s₁) (h₂ : s.Leads ts s₂) : s₁ = s₂ := by
  induction h₁ with
  | nil =>
    cases h₂ with
    | nil => rfl
  | cons hstep _ ih =>
    cases h₂ with
    | cons hstep' hrest =>
      cases hstep.symm.trans hstep'
      exact ih hrest

/-- Behind the end of the source nothing leads anywhere. -/
theorem of_finished {program : List Stmt} (h : (State.finished program).Leads ts s) :
    s = .finished program := by
  induction ts with
  | nil =>
    cases h with
    | nil => rfl
  | cons t ts ih =>
    cases h with
    | cons hstep hrest =>
      cases hstep
      exact ih hrest

/-- What can still fail has not come to the end of the source. -/
theorem kind_ne_eof (h : s.Leads ts s₁) {t : Token} {e : ParseError}
    (herror : s₁.step t = .error e) :
    ∀ t ∈ ts, t.kind ≠ .eof := by
  induction h with
  | nil => simp
  | cons hstep hrest ih =>
    refine List.forall_mem_cons.2 ⟨fun heof => ?_, ih herror⟩
    obtain ⟨program, rfl⟩ := finished_of_step heof hstep
    rw [hrest.of_finished] at herror
    cases herror

end State.Leads

/-! ## Programs -/

section

variable {body : List Token} {stop : Token}

/-- Tokens that the end of the source ends are a program or have an error. -/
theorem parseTokens_eq_ok_or_error (hstop : stop.kind = .eof) :
    (∃ program, parseTokens (body ++ [stop]) = .ok program) ∨
    ∃ e errors, parseTokens (body ++ [stop]) = .error (e :: errors) := by
  have hresult := Reading.result_feed_eof (Reading.accounts_start.foldl body) hstop
  unfold parseTokens
  rwa [List.foldl_append]

/-- **The first error is at the earliest token possible.** It is the error of a
token that comes after tokens which can be completed to a program, and whatever
follows the token, there is no program. If the tokens are those of a source, no
other token has the span of the error. -/
theorem first_error_is_earliest {errors : List ParseError} (hstop : stop.kind = .eof)
    (h : parseTokens (body ++ [stop]) = .error errors) :
    ∃ e rest before after, errors = e :: rest ∧ body ++ [stop] = before ++ e.found :: after ∧
      (∀ source, body ++ [stop] = tokens source → ∀ t ∈ before ++ after, t.span ≠ e.span) ∧
      (∃ more last program, (∀ t ∈ before ++ more, t.kind ≠ .eof) ∧ last.kind = .eof ∧
        parseTokens (before ++ (more ++ [last])) = .ok program) ∧
      ∀ more program, parseTokens (before ++ e.found :: more) ≠ .ok program := by
  obtain ⟨e, rest, rfl⟩ : ∃ e rest, errors = e :: rest := by
    rcases parseTokens_eq_ok_or_error hstop with ⟨program, hok⟩ | ⟨e, rest, herror⟩
    · cases h.symm.trans hok
    · cases h.symm.trans herror
      exact ⟨e, rest, rfl⟩
  have herrors := Reading.errors_of_result_eq_error h
  obtain ⟨before, after, s, heq, hleads, herror⟩ := Reading.exists_leads_of_errors herrors
  refine ⟨e, rest, before, after, rfl, heq, ?_, ?_, ?_⟩
  · intro source hsource t ht hspan
    have hstarts := (Lexer.tiled_tokens source).pairwise_start
    rw [← hsource, heq, List.pairwise_append, List.pairwise_cons] at hstarts
    obtain ⟨-, ⟨hafter, -⟩, hbefore⟩ := hstarts
    rcases List.mem_append.1 ht with ht | ht
    · exact absurd (hbefore t ht e.found List.mem_cons_self) (by simp [hspan, ParseError.span])
    · exact absurd (hafter t ht) (by simp [hspan, ParseError.span])
  · -- What was read before the error can be completed.
    obtain ⟨program, hrun⟩ := s.completes
    refine ⟨s.closing.map TokenKind.token, TokenKind.eof.token, program, ?_, rfl, ?_⟩
    · refine List.forall_mem_append.2 ⟨hleads.kind_ne_eof herror, ?_⟩
      rintro t ht heof
      obtain ⟨k, hk, rfl⟩ := List.mem_map.1 ht
      obtain rfl : k = .eof := heof
      exact s.eof_notMem_closing hk
    · refine Reading.result_foldl_eq_ok_iff.2 (hleads.append ?_)
      simpa [State.Runs] using hrun
  · intro more program hok
    -- Whatever follows, the tokens before lead to the same state, and the token
    -- at fault leads nowhere from there.
    obtain ⟨s', hleads', hrest⟩ := (Reading.result_foldl_eq_ok_iff.1 hok).of_append
    obtain rfl := hleads.unique hleads'
    cases hrest with
    | cons hstep => cases herror.symm.trans hstep

/-- The error is at a semicolon inside of an array, a call and a block, all of
which are open there. -/
theorem first_error_is_earliest_nested :
    let ts := tokens "if (a) \x7b f(1, [2, ; 3) \x7d"
    let body := ts.dropLast
    let stop : Token := ts.getLast?.getD default
    ts = body ++ [stop] ∧ stop.kind = .eof ∧
      ∃ e rest before after, parseTokens (body ++ [stop]) = .error (e :: rest) ∧
        body ++ [stop] = before ++ e.found :: after ∧
        (∃ more program, parseTokens (before ++ more) = .ok program) ∧
        ∀ more program, parseTokens (before ++ e.found :: more) ≠ .ok program := by
  intro ts body stop
  have hstop : stop.kind = .eof := by decide +kernel
  have hfails : (parseTokens (body ++ [stop])).isOk = false := by decide +kernel
  refine ⟨by decide +kernel, hstop, ?_⟩
  cases hread : parseTokens (body ++ [stop]) with
  | ok program =>
    rw [hread] at hfails
    cases hfails
  | error errors =>
    obtain ⟨e, rest, before, after, rfl, heq, -, ⟨more, last, program, -, -, hok⟩, hnever⟩ :=
      first_error_is_earliest hstop hread
    exact ⟨e, rest, before, after, rfl, heq, ⟨_, program, hok⟩, hnever⟩

/-- **Recovery makes progress and never repeats itself.** Reading tokens up to
the end of the source gives a program or errors, at least one. They are the
errors of different tokens in the order of the tokens, and there is at most one
more of them than there are semicolons. If the tokens are those of a source,
each error begins after the one before it. -/
theorem recovery_makes_progress (hstop : stop.kind = .eof) :
    (∃ program, parseTokens (body ++ [stop]) = .ok program) ∨
    ∃ errors, parseTokens (body ++ [stop]) = .error errors ∧ errors ≠ [] ∧
      errors.length ≤ (body.map Token.kind).count .semicolon + 1 ∧
      (errors.map ParseError.found).Sublist (body ++ [stop]) ∧
      ∀ source, body ++ [stop] = tokens source →
        errors.Pairwise fun a b => a.span.start.offset < b.span.start.offset := by
  rcases parseTokens_eq_ok_or_error hstop with hok | ⟨e, errors, herror⟩
  · exact .inl hok
  · have haccounts := Reading.accounts_start.foldl (body ++ [stop])
    rw [List.nil_append] at haccounts
    have herrors := Reading.errors_of_result_eq_error herror
    have hfound := haccounts.found
    have hlength := haccounts.length
    rw [herrors] at hfound hlength
    refine .inr ⟨e :: errors, herror, List.cons_ne_nil e errors, ?_, hfound,
      fun source hsource => ?_⟩
    · have hcount : ((body ++ [stop]).map Token.kind).count .semicolon =
          (body.map Token.kind).count .semicolon := by simp [hstop]
      split at hlength <;> omega
    · have hstarts := (Lexer.tiled_tokens source).pairwise_start
      rw [← hsource] at hstarts
      have hsublist := hstarts.sublist hfound
      rw [List.pairwise_map] at hsublist
      exact hsublist

/-- Three errors, with two semicolons. -/
theorem recovery_makes_progress_thrice :
    let ts := tokens "let = 5; let x 3; 1 +"
    let body := ts.dropLast
    let stop : Token := ts.getLast?.getD default
    ts = body ++ [stop] ∧ stop.kind = .eof ∧
      ∃ errors, parseTokens (body ++ [stop]) = .error errors ∧ errors.length = 3 ∧
        errors.length ≤ (body.map Token.kind).count .semicolon + 1 ∧
        errors.Pairwise fun a b => a.span.start.offset < b.span.start.offset := by
  intro ts body stop
  have hts : ts = body ++ [stop] := by decide +kernel
  have hstop : stop.kind = .eof := by decide +kernel
  have hthree : ((body ++ [stop]).foldl Reading.feed .start).errors.toList.length = 3 := by
    decide +kernel
  refine ⟨hts, hstop, ?_⟩
  rcases @recovery_makes_progress body stop hstop with
    ⟨program, hok⟩ | ⟨errors, herror, -, hlength, -, hsource⟩
  · rw [Reading.errors_of_result hok] at hthree
    cases hthree
  · rw [Reading.errors_of_result_eq_error herror] at hthree
    exact ⟨errors, herror, hthree, hlength, hsource _ hts.symm⟩

end

end StackScript
