import StackScript.Proofs.Compiler.Adequacy
import StackScript.Proofs.Compiler.Steps
import StackScript.Proofs.Syntax.Bare

/-!
# Layout does not matter

The compiler looks at spans only to say where an error is. Two computations are
**alike** if they give the same result and leave the same compiler, or fail with
the same fault and leave the same compiler (`Compile.Alike`), and a program is
compiled like its bare form (`Compile.alike_statements`).

Together with reading, which forgets spans just as well, this makes the whole
way from source to code independent of layout: of two sources with the same
kinds of tokens, either neither can be read, with the same messages, or both are
read as the same program but for its spans, and what the compiler makes of the
two is the same. Main statement: `layout_does_not_matter`.
-/

namespace StackScript

namespace Compile

variable {α β : Type}

/-- The result without the span of an error. -/
def unplaced : EStateM.Result CompileError Compiler α → EStateM.Result CompileError Compiler α
  | .ok a c => .ok a c
  | .error e c => .error ⟨e.fault, default⟩ c

/-- **Computations that differ in the spans of errors at most.** -/
def Alike (x y : Compile α) : Prop := ∀ c, unplaced (x c) = unplaced (y c)

namespace Alike

variable {x y z : Compile α} {f g : α → Compile β}

theorem refl (x : Compile α) : Alike x x := fun _ => rfl

theorem symm (h : Alike x y) : Alike y x := fun c => (h c).symm

theorem trans (h₁ : Alike x y) (h₂ : Alike y z) : Alike x z := fun c => (h₁ c).trans (h₂ c)

/-- A fault is the same wherever it is found. -/
theorem fail (fault : CompileFault) (s t : Span) :
    Alike (Compile.fail fault s : Compile α) (Compile.fail fault t) := fun _ => rfl

/-- **One computation after another is alike** if both parts are. -/
theorem bind (hx : Alike x y) (hf : ∀ a, Alike (f a) (g a)) : Alike (x >>= f) (y >>= g) := by
  intro c
  have hc := hx c
  show unplaced (EStateM.bind x f c) = unplaced (EStateM.bind y g c)
  unfold EStateM.bind
  cases hxc : x c with
  | ok a c₁ =>
    cases hyc : y c with
    | ok b c₂ =>
      rw [hxc, hyc] at hc
      cases hc
      exact hf a c₁
    | error e c₂ =>
      rw [hxc, hyc] at hc
      cases hc
  | error e c₁ =>
    cases hyc : y c with
    | ok b c₂ =>
      rw [hxc, hyc] at hc
      cases hc
    | error e' c₂ =>
      rw [hxc, hyc] at hc
      simp only [unplaced, EStateM.Result.error.injEq] at hc ⊢
      exact hc

/-- The same computation, and then computations that are alike. -/
theorem andThen (x : Compile α) (hf : ∀ a, Alike (f a) (g a)) : Alike (x >>= f) (x >>= g) :=
  (refl x).bind hf

end Alike

/-! ## Steps of the compiler -/

section

variable (s t : Span)

/-- A number that is too large for an operand of two bytes is too large
wherever it stands. -/
theorem alike_wide (n : Nat) (fault : CompileFault) : Alike (wide n fault s) (wide n fault t) := by
  unfold wide
  split
  · exact .refl _
  · exact .fail _ _ _

/-- The same goes for operands of one byte. -/
theorem alike_narrow (n : Nat) (fault : CompileFault) :
    Alike (narrow n fault s) (narrow n fault t) := by
  unfold narrow
  split
  · exact .refl _
  · exact .fail _ _ _

/-- A literal has the same index wherever it stands. -/
theorem alike_literal (v : Value) : Alike (literal v s) (literal v t) := by
  intro c
  rw [literal_eq, literal_eq]
  cases c.constants.findIdx? (sameLiteral v) with
  | some found => exact alike_wide s t _ _ c
  | none => exact alike_wide s t _ _ (c.push v)

/-- A symbol is loaded by the same instruction wherever it is used. -/
theorem alike_load (symbol : Symbol) : Alike (load symbol s) (load symbol t) := by
  unfold load
  split
  · exact (alike_wide s t _ _).bind fun _ => .refl _
  · exact (alike_narrow s t _ _).bind fun _ => .refl _
  · exact (alike_narrow s t _ _).bind fun _ => .refl _
  · exact (alike_narrow s t _ _).bind fun _ => .refl _
  · exact .refl _

/-- Loading captures is alike, symbol by symbol. An error can only be that there
are too many of them. -/
theorem alike_loadAll (symbols : List Symbol) : Alike (loadAll s symbols) (loadAll t symbols) := by
  induction symbols with
  | nil => exact .refl _
  | cons symbol rest ih => exact (alike_load s t symbol).bind fun _ => ih

/-- And it is stored into by the same instruction. -/
theorem alike_store (symbol : Symbol) : Alike (store symbol s) (store symbol t) := by
  unfold store
  split
  · exact (alike_wide s t _ _).bind fun _ => .refl _
  · exact (alike_narrow s t _ _).bind fun _ => .refl _

/-- A name is resolved by what it is called. -/
theorem alike_resolve (name : String) : Alike (resolve name s) (resolve name t) := by
  intro c
  unfold resolve
  split <;> rfl

/-- A jump is given its target wherever the conditional stands. -/
theorem alike_bind (label : Label) : Alike (Compile.bind label s) (Compile.bind label t) := by
  intro c
  unfold Compile.bind
  split <;> rfl

/-- The code of a function is ended without a look at where it stands: the
span is for a failure that the last instruction rules out. -/
theorem alike_finishBody : Alike (finishBody s) (finishBody t) := by
  have hreturn : Alike (returnLast s) (returnLast t) := by
    intro c
    unfold returnLast
    split <;> rfl
  refine .andThen _ fun discarded => ?_
  cases discarded with
  | true => exact hreturn.bind fun _ => .refl _
  | false => exact .refl _

/-- A function is closed and built the same wherever it stands. -/
theorem alike_buildClosure (params : Nat) :
    Alike (buildClosure params s) (buildClosure params t) := by
  have hleave : Alike (leaveFunction s) (leaveFunction t) := by
    intro c
    unfold leaveFunction
    split <;> rfl
  refine hleave.bind ?_
  rintro ⟨code, captures, locals⟩
  refine (alike_narrow s t _ _).bind fun captured => (alike_loadAll s t _).bind fun _ => ?_
  refine Alike.bind ?_ fun _ => .refl _
  exact .andThen _ fun _ => alike_wide s t _ _

end

/-- The step without a span for its error. -/
def Step.unplaced : Step α → Step α
  | .fail fault _ => .fail fault default
  | .narrow n fault _ => .narrow n fault default
  | .wide n fault _ => .wide n fault default
  | .number n _ => .number n default
  | .string text _ => .string text default
  | .resolve name _ => .resolve name default
  | .load symbol _ => .load symbol default
  | .store symbol _ => .store symbol default
  | .bind label _ => .bind label default
  | .finishBody _ => .finishBody default
  | .buildClosure params _ => .buildClosure params default
  | .define name => .define name
  | .atTopLevel => .atTopLevel
  | .emit i => .emit i
  | .jump conditional => .jump conditional
  | .finishBranch block => .finishBranch block
  | .openFunction name params => .openFunction name params

/-- **Takes a step blindly**: it does what it does wherever it stands. -/
def blind (s : Step α) : Compile α := s.unplaced.run

/-- **Every step of the compiler is taken alike with and without a span**, so
every program is compiled like it is compiled blindly. -/
theorem closed_alike : Closed (m := Compile) blind Alike where
  pure a := .refl _
  bind hx hf := hx.bind hf
  step s := by
    cases s with
    | fail fault span => exact .fail fault _ span
    | narrow n fault span => exact alike_narrow _ span n fault
    | wide n fault span => exact alike_wide _ span n fault
    | number n span => exact alike_literal _ span (.number n)
    | string text span => exact alike_literal _ span (.string text)
    | load symbol span => exact alike_load _ span symbol
    | store symbol span => exact alike_store _ span symbol
    | finishBody span => exact alike_finishBody _ span
    | buildClosure params span => exact alike_buildClosure _ span params
    | define | atTopLevel | emit | jump | finishBranch | openFunction => exact .refl _
    | resolve name span => exact alike_resolve _ span name
    | bind label span => exact alike_bind _ span label

/-! ## Programs -/

/-- Opening a function looks at the names of its parameters only. -/
theorem openFunction_bare (name : Option String) (params : List Ident) :
    openFunction name (params.map Ident.bare) = openFunction name params := by
  have hall : defineAll (params.map Ident.bare) = defineAll params := by
    induction params with
    | nil => rfl
    | cons x rest ih => rw [List.map_cons, defineAll, defineAll, ih, Ident.bare]
  rw [openFunction, openFunction, hall]

/-- How a branch ends depends on what its last statement is, and not on where
anything stands. -/
theorem finishBranch_bare (block : Block) : finishBranch block.bare = finishBranch block := by
  obtain ⟨body, span⟩ := block
  funext f
  simp only [finishBranch, Block.bare, Stmt.bareAll_eq, Block.body, List.getLast?_map]
  cases body.getLast? with
  | none => rfl
  | some x => cases x <;> simp [Stmt.bare]

mutual

/-- **Blindly, an expression is compiled as its bare form is.** Where a step
is taken with a span, it is not looked at, and everything else is the same in
the two. -/
theorem blind_expr (e : Expr) : Walk.expr blind e.bare = Walk.expr blind e := by
  match e with
  | .ident name span | .number n span | .string text span =>
    rw [Expr.bare, Walk.expr, Walk.expr]
    rfl
  | .boolean b span => cases b <;> rw [Expr.bare, Walk.expr, Walk.expr]
  | .unary op operand span => rw [Expr.bare, Walk.expr, Walk.expr, blind_expr operand]
  | .binary op left right span =>
    by_cases hop : op = .less
    · subst hop
      rw [Expr.bare, Walk.expr, Walk.expr, blind_expr left, blind_expr right]
    · have heq : ∀ left right span, Walk.expr blind (.binary op left right span) = (do
          Walk.expr blind left
          Walk.expr blind right
          blind (.emit (binaryInstruction op))) := by
        intro left right span
        rw [Walk.expr]
        exact hop
      rw [Expr.bare, heq, heq, blind_expr left, blind_expr right]
  | .cond test yes no span =>
    rw [Expr.bare, Walk.expr, Walk.expr, blind_expr test, blind_branch yes, blind_other no]
    rfl
  | .function name params (.mk body place) span =>
    have hopen : blind (.openFunction name (params.map Ident.bare)) =
        blind (.openFunction name params) := openFunction_bare name params
    rw [Expr.bare, Block.bare, Walk.expr, Walk.expr, List.length_map, hopen, blind_statements body]
    rfl
  | .call callee args span =>
    rw [Expr.bare, Walk.expr, Walk.expr, blind_expr callee, blind_exprs args, Expr.bareAll_eq,
      List.length_map]
    rfl
  | .array items span =>
    rw [Expr.bare, Walk.expr, Walk.expr, blind_exprs items, Expr.bareAll_eq, List.length_map]
    rfl
  | .index container key span =>
    rw [Expr.bare, Walk.expr, Walk.expr, blind_expr container, blind_expr key]
  | .map entries span =>
    rw [Expr.bare, Walk.expr, Walk.expr, blind_pairs entries, Expr.barePairs_eq, List.length_map]
    rfl

/-- Expressions in a row. -/
theorem blind_exprs (es : List Expr) :
    Walk.exprs blind (Expr.bareAll es) = Walk.exprs blind es := by
  match es with
  | [] => rw [Expr.bareAll]
  | e :: rest => rw [Expr.bareAll, Walk.exprs, Walk.exprs, blind_expr e, blind_exprs rest]

/-- The keys and values of a map. -/
theorem blind_pairs (entries : List (Expr × Expr)) :
    Walk.pairs blind (Expr.barePairs entries) = Walk.pairs blind entries := by
  match entries with
  | [] => rw [Expr.barePairs]
  | (key, value) :: rest =>
    rw [Expr.barePairs, Walk.pairs, Walk.pairs, blind_expr key, blind_expr value, blind_pairs rest]

/-- A block as a branch. -/
theorem blind_branch (block : Block) : Walk.branch blind block.bare = Walk.branch blind block := by
  match block with
  | .mk body span =>
    have hfinish : blind (.finishBranch (Block.mk body span).bare) =
        blind (.finishBranch (.mk body span)) :=
      congrArg modifyFragment (finishBranch_bare (.mk body span))
    rw [Block.bare] at hfinish ⊢
    rw [Walk.branch, Walk.branch, blind_statements body, hfinish]

/-- A branch that may be missing. -/
theorem blind_other (no : Option Block) :
    Walk.other blind (Block.bareOther no) = Walk.other blind no := by
  match no with
  | none => rw [Block.bareOther]
  | some block => rw [Block.bareOther, Walk.other, Walk.other, blind_branch block]

/-- A statement: where its name was found does not matter to the compiler. -/
theorem blind_statement (s : Stmt) : Walk.statement blind s.bare = Walk.statement blind s := by
  match s with
  | .expr value span => rw [Stmt.bare, Walk.statement, Walk.statement, blind_expr value]
  | .bind name value span =>
    rw [Stmt.bare, Walk.statement, Walk.statement, blind_expr value]
    rfl
  | .ret value span =>
    rw [Stmt.bare, Walk.statement, Walk.statement, blind_expr value]
    rfl

/-- Statements in a row, and so a program. -/
theorem blind_statements (program : List Stmt) :
    Walk.statements blind (Stmt.bareAll program) = Walk.statements blind program := by
  match program with
  | [] => rw [Stmt.bareAll]
  | s :: rest =>
    rw [Stmt.bareAll, Walk.statements, Walk.statements, blind_statement s, blind_statements rest]

end

/-- **A program is compiled like its bare form**: both are compiled as they
are blindly, and that is the same. -/
theorem alike_statements (program : List Stmt) :
    Alike (statements (program.map Stmt.bare)) (statements program) := by
  have hbare := closed_alike.statements (program.map Stmt.bare)
  rw [← Stmt.bareAll_eq, blind_statements] at hbare
  rw [← Stmt.bareAll_eq]
  exact hbare.symm.trans (closed_alike.statements program)

end Compile

variable {source source' : String} {program program' : List Stmt}

/-- **Programs that are the same but for their spans are compiled alike.** -/
theorem Compiler.compile_of_bare (c : Compiler)
    (h : program.map Stmt.bare = program'.map Stmt.bare) :
    (∃ after, c.compile program = (.ok (), after) ∧ c.compile program' = (.ok (), after)) ∨
      ∃ e e' after, c.compile program = (.error e, after) ∧
        c.compile program' = (.error e', after) ∧
        e.message = e'.message := by
  have halike : Compile.Alike (Compile.statements program) (Compile.statements program') := by
    refine (Compile.alike_statements program).symm.trans ?_
    rw [h]
    exact Compile.alike_statements program'
  have hc := halike c
  unfold Compiler.compile
  cases hrun : Compile.statements program c with
  | ok _ after =>
    cases hrun' : Compile.statements program' c with
    | ok _ after' =>
      rw [hrun, hrun'] at hc
      cases hc
      exact .inl ⟨after, rfl, rfl⟩
    | error e' after' =>
      rw [hrun, hrun'] at hc
      cases hc
  | error e after =>
    cases hrun' : Compile.statements program' c with
    | ok _ after' =>
      rw [hrun, hrun'] at hc
      cases hc
    | error e' after' =>
      rw [hrun, hrun'] at hc
      simp only [Compile.unplaced, EStateM.Result.error.injEq, CompileError.mk.injEq,
        and_true] at hc
      obtain ⟨hfault, rfl⟩ := hc
      exact .inr ⟨e, e', after, rfl, rfl, congrArg CompileFault.message hfault⟩

/-- Tokens of the same kinds are the same tokens but for spans. -/
theorem map_bare_of_map_kind {ts ts' : List Token} (h : ts.map Token.kind = ts'.map Token.kind) :
    ts.map Token.bare = ts'.map Token.bare := by
  have hbare : Token.bare = (fun kind => (⟨kind, default⟩ : Token)) ∘ Token.kind := rfl
  rw [hbare, ← List.map_map, ← List.map_map, h]

/-- **Sources with the same kinds of tokens are read alike.** -/
theorem parse_of_kinds (h : (tokens source).map Token.kind = (tokens source').map Token.kind) :
    (∃ errors errors', parse source = .error errors ∧ parse source' = .error errors' ∧
      errors.map ParseError.message = errors'.map ParseError.message) ∨
      ∃ program program', parse source = .ok program ∧ parse source' = .ok program' ∧
        program.map Stmt.bare = program'.map Stmt.bare := by
  have hbare : Reading.bareResult (parse source) = Reading.bareResult (parse source') := by
    unfold parse
    rw [bare_parseTokens, bare_parseTokens, map_bare_of_map_kind h]
  have hmessage : ParseError.message = ParseError.message ∘ ParseError.bare := rfl
  cases hread : parse source with
  | error errors =>
    cases hread' : parse source' with
    | ok program =>
      rw [hread, hread'] at hbare
      cases hbare
    | error errors' =>
      rw [hread, hread'] at hbare
      refine .inl ⟨errors, errors', rfl, rfl, ?_⟩
      rw [hmessage, ← List.map_map, ← List.map_map, Except.error.inj hbare]
  | ok program =>
    cases hread' : parse source' with
    | error errors =>
      rw [hread, hread'] at hbare
      cases hbare
    | ok program' =>
      rw [hread, hread'] at hbare
      exact .inr ⟨program, program', rfl, rfl, Except.ok.inj hbare⟩

/-- **Layout does not matter.** Two sources with the same kinds of tokens,
contents of literals and identifiers included, either cannot be read for the
same reasons, or are read as programs that are the same but for their spans.
From whatever state, the compiler then comes to the same code, constants and
names for both, or fails for the same reason. -/
theorem layout_does_not_matter
    (h : (tokens source).map Token.kind = (tokens source').map Token.kind) (c : Compiler) :
    (∃ errors errors', parse source = .error errors ∧ parse source' = .error errors' ∧
      errors.map ParseError.message = errors'.map ParseError.message) ∨
      ∃ program program', parse source = .ok program ∧ parse source' = .ok program' ∧
        program.map Stmt.bare = program'.map Stmt.bare ∧
        ((∃ after, c.compile program = (.ok (), after) ∧ c.compile program' = (.ok (), after)) ∨
          ∃ e e' after, c.compile program = (.error e, after) ∧
            c.compile program' = (.error e', after) ∧ e.message = e'.message) := by
  rcases parse_of_kinds h with herror | ⟨program, program', hread, hread', hbare⟩
  · exact .inl herror
  · exact .inr ⟨program, program', hread, hread', hbare, c.compile_of_bare hbare⟩

/-- The same tokens on one line and on five. The program has an unknown name, so
both are rejected, with the same message. -/
theorem layout_does_not_matter_lines :
    let source := "let add = fn(x) { fn(y) { x + y } }; add(1)(-two)"
    let source' := "let add =\n  fn(x){fn  (y){x+y}}\n;\nadd ( 1 )\n  ( - two )\n"
    tokens source ≠ tokens source' ∧
      (tokens source).map Token.kind = (tokens source').map Token.kind ∧
      ∃ program program', parse source = .ok program ∧ parse source' = .ok program' ∧
        program.map Stmt.bare = program'.map Stmt.bare ∧
        ∃ e e' after, Compiler.initial.compile program = (.error e, after) ∧
          Compiler.initial.compile program' = (.error e', after) ∧ e.message = e'.message := by
  intro source source'
  have hkinds : (tokens source).map Token.kind = (tokens source').map Token.kind := by
    decide +kernel
  have hread : (parse source).isOk = true := by decide +kernel
  have hcompile : (Compiler.initial.compile ((parse source).toOption.getD [])).1.isOk = false := by
    decide +kernel
  refine ⟨by decide +kernel, hkinds, ?_⟩
  rcases layout_does_not_matter hkinds Compiler.initial with ⟨errors, -, herror, -⟩ |
    ⟨program, program', hprogram, hprogram', hbare, ⟨after, hok, -⟩ | herror⟩
  · rw [herror] at hread
    cases hread
  · rw [hprogram, show (Except.ok program : Except (List ParseError) _).toOption.getD [] = program
      from rfl, hok] at hcompile
    cases hcompile
  · exact ⟨program, program', hprogram, hprogram', hbare, herror⟩

end StackScript
