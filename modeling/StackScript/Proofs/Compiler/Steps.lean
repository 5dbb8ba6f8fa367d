import StackScript.Compiler.Basic

/-!
# One way through the compiler

Much of what is said of the compiler is true of whole compilations because it
is true of each of its steps: that constants are only added, that spans are
only looked at to place an error, that a compilation can be watched without
being changed. What such statements share is the way through the syntax of a
program, and it is gone here once.

The steps are data (`Step`), and each can be taken by the compiler
(`Step.run`). `Walk.expr` and its fellows say which steps a program asks for,
one after the other, and leave open how they are taken: a **handler** takes
them, in any monad. To relate a walk to the compilation of the same program
is then a matter of the steps alone. A relation between the two that holds of
values, follows sequencing and holds of every step (`Closed`) holds of
expressions, statements and programs (`Closed.expr`, `Closed.statement` and
`Closed.statements`).

A handler may take a step in several, as the one does that watches. It may
also do nothing of its own: a property of the compiler alone is a relation
that does not look at the walk.
-/

namespace StackScript

namespace Compile

/-! ## Steps -/

/-- **A step of the compiler**, by the type of what it finds out. What ends
the code of a branch or of a function is one step, and so is what opens or
closes a function. -/
inductive Step : Type → Type where
  /-- Fails. -/
  | fail (fault : CompileFault) (span : Span) : Step Unit
  /-- Makes a number an operand of one byte. -/
  | narrow (n : Nat) (fault : CompileFault) (span : Span) : Step UInt8
  /-- Makes a number an operand of two bytes. -/
  | wide (n : Nat) (fault : CompileFault) (span : Span) : Step UInt16
  /-- Finds the index of a number in the pool. -/
  | number (n : Number) (span : Span) : Step UInt16
  /-- Finds the index of a string in the pool. -/
  | string (text : String) (span : Span) : Step UInt16
  /-- Finds the symbol of a name. -/
  | resolve (name : String) (span : Span) : Step Symbol
  /-- Binds a name. -/
  | define (name : String) : Step Symbol
  /-- Asks whether no function is open. -/
  | atTopLevel : Step Bool
  /-- Appends an instruction. -/
  | emit (i : Instruction) : Step Unit
  /-- Appends the instruction that pushes the value of a symbol. -/
  | load (symbol : Symbol) (span : Span) : Step Unit
  /-- Appends the instruction that pops a value into a variable. -/
  | store (symbol : Symbol) (span : Span) : Step Unit
  /-- Appends a jump that waits for its target. -/
  | jump (conditional : Bool) : Step Label
  /-- Makes a waiting jump land at the end of the code. -/
  | bind (label : Label) (span : Span) : Step Unit
  /-- Ends the code of a branch. -/
  | finishBranch (block : Block) : Step Unit
  /-- Opens a function and binds its names. -/
  | openFunction (name : Option String) (params : List Ident) : Step Unit
  /-- Ends the code of a function. -/
  | finishBody (span : Span) : Step Unit
  /-- Closes a function and appends the instructions that build its closure. -/
  | buildClosure (params : Nat) (span : Span) : Step Unit

/-- **Takes a step**, as the compiler does. -/
def Step.run {α : Type} : Step α → Compile α
  | .fail fault span => Compile.fail fault span
  | .narrow n fault span => Compile.narrow n fault span
  | .wide n fault span => Compile.wide n fault span
  | .number n span => literal (.number n) span
  | .string text span => literal (.string text) span
  | .resolve name span => Compile.resolve name span
  | .define name => Compile.define name
  | .atTopLevel => Compile.atTopLevel
  | .emit i => Compile.emit i
  | .load symbol span => Compile.load symbol span
  | .store symbol span => Compile.store symbol span
  | .jump true => emitJumpNotTruthy
  | .jump false => emitJump
  | .bind label span => Compile.bind label span
  | .finishBranch block => modifyFragment (Compile.finishBranch block)
  | .openFunction name params => Compile.openFunction name params
  | .finishBody span => Compile.finishBody span
  | .buildClosure params span => Compile.buildClosure params span

/-! ## Walks -/

namespace Walk

variable {m : Type → Type} [Monad m] (take : ∀ {α : Type}, Step α → m α)

mutual

/-- **The steps of an expression**, as a handler takes them. -/
def expr : Expr → m Unit
  | .ident name span => do take (.load (← take (.resolve name span)) span)
  | .number n span => do
    if n.isFinite then take (.emit (.constant (← take (.number n span))))
    else take (.fail (.malformedNumber n) span)
  | .boolean true _ => take (.emit .pushTrue)
  | .boolean false _ => take (.emit .pushFalse)
  | .string text span => do take (.emit (.constant (← take (.string text span))))
  | .unary op operand _ => do
    expr operand
    take (.emit (unaryInstruction op))
  | .binary .less left right _ => do
    expr right
    expr left
    take (.emit (binaryInstruction .less))
  | .binary op left right _ => do
    expr left
    expr right
    take (.emit (binaryInstruction op))
  | .cond test yes no span => do
    expr test
    let toNo ← take (.jump true)
    branch yes
    let toEnd ← take (.jump false)
    take (.bind toNo span)
    other no
    take (.bind toEnd span)
  | .function name params (.mk body _) span => do
    if 255 < params.length then take (.fail .tooManyParameters span)
    take (.openFunction name params)
    statements body
    take (.finishBody span)
    take (.buildClosure params.length span)
  | .call callee args span => do
    expr callee
    exprs args
    take (.emit (.call (← take (.narrow args.length .tooManyArguments span))))
  | .array items span => do
    exprs items
    take (.emit (.makeArray (← take (.wide items.length .arrayTooLong span))))
  | .index container key _ => do
    expr container
    expr key
    take (.emit .index)
  | .map entries span => do
    pairs entries
    take (.emit (.makeMap (← take (.wide (2 * entries.length) .mapTooLong span))))

/-- The steps of expressions in order. -/
def exprs : List Expr → m Unit
  | [] => pure ()
  | e :: rest => do
    expr e
    exprs rest

/-- The steps of keys and values in order. -/
def pairs : List (Expr × Expr) → m Unit
  | [] => pure ()
  | (key, value) :: rest => do
    expr key
    expr value
    pairs rest

/-- The steps of a branch of a conditional. -/
def branch : Block → m Unit
  | .mk body span => do
    statements body
    take (.finishBranch (.mk body span))

/-- The steps of the other branch, which may be missing. -/
def other : Option Block → m Unit
  | some block => branch block
  | none => take (.emit .pushNull)

/-- **The steps of a statement.** -/
def statement : Stmt → m Unit
  | .expr value _ => do
    expr value
    take (.emit .pop)
  | .bind name value _ => do
    expr value
    take (.store (← take (.define name.name)) name.span)
  | .ret value span => do
    if ← take .atTopLevel then take (.fail .returnOutsideFunction span)
    expr value
    take (.emit .returnValue)

/-- The steps of statements in order. -/
def statements : List Stmt → m Unit
  | [] => pure ()
  | s :: rest => do
    statement s
    statements rest

end

end Walk

/-! ## Properties of steps -/

variable {m : Type → Type} [Monad m] {take : ∀ {α : Type}, Step α → m α}
  {R : ∀ {α : Type}, m α → Compile α → Prop}

/-- **A relation between computations with a handler and computations of the
compiler that the steps decide.** It holds of values, follows sequencing, and
holds between what the handler makes of a step and the step. -/
structure Closed (take : ∀ {α : Type}, Step α → m α)
    (R : ∀ {α : Type}, m α → Compile α → Prop) : Prop where
  /-- Values are related to themselves. -/
  pure : ∀ {α : Type} (a : α), R (Pure.pure a : m α) (Pure.pure a)
  /-- So are computations that go on with related ones. -/
  bind : ∀ {α β : Type} {x : m α} {y : Compile α} {f : α → m β} {g : α → Compile β},
    R x y → (∀ a, R (f a) (g a)) → R (x >>= f) (y >>= g)
  /-- A step that is handled is related to the step that is taken. -/
  step : ∀ {α : Type} (s : Step α), R (take s) s.run

namespace Closed

section

variable (h : Closed take R)

include h

/-- An instruction is appended after something else. -/
theorem andEmit {x : m Unit} {y : Compile Unit} (hx : R x y) (i : Instruction) :
    R (do x; take (.emit i)) (do y; Compile.emit i) :=
  h.bind hx fun _ => h.step (.emit i)

/-- An instruction is appended when its operand is there. -/
theorem withOperand {α : Type} (s : Step α) (f : α → Instruction) :
    R (do take (.emit (f (← take s)))) (do Compile.emit (f (← s.run))) :=
  h.bind (h.step s) fun a => h.step (.emit (f a))

mutual

/-- **A relation that the steps decide holds of expressions.** The induction
is on the expression and follows the compiler, so that nothing else has to go
through its do blocks again. -/
theorem expr (e : Expr) : R (Walk.expr take e) (Compile.expr e) := by
  match e with
  | .ident name span =>
    rw [Walk.expr, Compile.expr]
    exact h.bind (h.step (.resolve name span)) fun symbol => h.step (.load symbol span)
  | .number n span =>
    rw [Walk.expr, Compile.expr]
    by_cases hn : n.isFinite = true
    · rw [if_pos hn, if_pos hn]
      exact h.withOperand (.number n span) .constant
    · rw [if_neg hn, if_neg hn]
      exact h.step (.fail (.malformedNumber n) span)
  | .boolean true span =>
    rw [Walk.expr, Compile.expr]
    exact h.step (.emit .pushTrue)
  | .boolean false span =>
    rw [Walk.expr, Compile.expr]
    exact h.step (.emit .pushFalse)
  | .string text span =>
    rw [Walk.expr, Compile.expr]
    exact h.withOperand (.string text span) .constant
  | .unary op operand span =>
    rw [Walk.expr, Compile.expr]
    exact h.andEmit (expr operand) _
  | .binary op left right span =>
    by_cases hop : op = .less
    · subst hop
      rw [Walk.expr, Compile.expr]
      exact h.bind (expr right) fun _ => h.andEmit (expr left) _
    · rw [Walk.expr, Compile.expr]
      · exact h.bind (expr left) fun _ => h.andEmit (expr right) _
      · exact hop
      · exact hop
  | .cond test yes no span =>
    rw [Walk.expr, Compile.expr]
    refine h.bind (expr test) fun _ => h.bind (h.step (.jump true)) fun toNo => ?_
    refine h.bind (branch yes) fun _ => h.bind (h.step (.jump false)) fun toEnd => ?_
    refine h.bind (h.step (.bind toNo span)) fun _ => ?_
    match no with
    | none =>
      rw [Walk.other]
      exact h.bind (h.step (.emit .pushNull)) fun _ => h.step (.bind toEnd span)
    | some block =>
      rw [Walk.other]
      exact h.bind (branch block) fun _ => h.step (.bind toEnd span)
  | .function name params (.mk body place) span =>
    -- The same do block stands behind both outcomes of the test on the number
    -- of parameters.
    have hbody : R (do
          take (.openFunction name params)
          Walk.statements take body
          take (.finishBody span)
          take (.buildClosure params.length span))
        (do
          Compile.openFunction name params
          Compile.statements body
          Compile.finishBody span
          Compile.buildClosure params.length span) :=
      h.bind (h.step (.openFunction name params)) fun _ => h.bind (statements body) fun _ =>
        h.bind (h.step (.finishBody span)) fun _ => h.step (.buildClosure params.length span)
    rw [Walk.expr, Compile.expr]
    by_cases hp : 255 < params.length
    · rw [if_pos hp, if_pos hp]
      exact h.bind (h.step (.fail .tooManyParameters span)) fun _ => hbody
    · rw [if_neg hp, if_neg hp]
      exact hbody
  | .call callee args span =>
    rw [Walk.expr, Compile.expr]
    refine h.bind (expr callee) fun _ => h.bind (exprs args) fun _ => ?_
    exact h.withOperand (.narrow args.length .tooManyArguments span) .call
  | .array items span =>
    rw [Walk.expr, Compile.expr]
    exact h.bind (exprs items) fun _ =>
      h.withOperand (.wide items.length .arrayTooLong span) .makeArray
  | .index container key span =>
    rw [Walk.expr, Compile.expr]
    exact h.bind (expr container) fun _ => h.andEmit (expr key) _
  | .map entries span =>
    rw [Walk.expr, Compile.expr]
    exact h.bind (pairs entries) fun _ =>
      h.withOperand (.wide (2 * entries.length) .mapTooLong span) .makeMap

/-- Items and arguments, one after the other. -/
theorem exprs (es : List Expr) : R (Walk.exprs take es) (Compile.exprs es) := by
  match es with
  | [] =>
    rw [Walk.exprs, Compile.exprs]
    exact h.pure ()
  | e :: rest =>
    rw [Walk.exprs, Compile.exprs]
    exact h.bind (expr e) fun _ => exprs rest

/-- The keys and values of a map, in turns. -/
theorem pairs (entries : List (Expr × Expr)) :
    R (Walk.pairs take entries) (Compile.pairs entries) := by
  match entries with
  | [] =>
    rw [Walk.pairs, Compile.pairs]
    exact h.pure ()
  | (key, value) :: rest =>
    rw [Walk.pairs, Compile.pairs]
    exact h.bind (expr key) fun _ => h.bind (expr value) fun _ => pairs rest

/-- A block as a branch: its statements, and then what makes it leave a
value. -/
theorem branch (block : Block) : R (Walk.branch take block) (Compile.branch block) := by
  match block with
  | .mk body span =>
    rw [Walk.branch, Compile.branch]
    exact h.bind (statements body) fun _ => h.step (.finishBranch (.mk body span))

/-- It holds of statements, too. -/
theorem statement (s : Stmt) : R (Walk.statement take s) (Compile.statement s) := by
  match s with
  | .expr value span =>
    rw [Walk.statement, Compile.statement]
    exact h.andEmit (expr value) _
  | .bind name value span =>
    rw [Walk.statement, Compile.statement]
    exact h.bind (expr value) fun _ => h.bind (h.step (.define name.name)) fun symbol =>
      h.step (.store symbol name.span)
  | .ret value span =>
    have hvalue := h.andEmit (expr value) .returnValue
    rw [Walk.statement, Compile.statement]
    refine h.bind (h.step .atTopLevel) fun top => ?_
    cases top with
    | true => exact h.bind (h.step (.fail .returnOutsideFunction span)) fun _ => hvalue
    | false => exact hvalue

/-- **And it holds of programs.** -/
theorem statements (program : List Stmt) :
    R (Walk.statements take program) (Compile.statements program) := by
  match program with
  | [] =>
    rw [Walk.statements, Compile.statements]
    exact h.pure ()
  | s :: rest =>
    rw [Walk.statements, Compile.statements]
    exact h.bind (statement s) fun _ => statements rest

end

end

end Closed

end Compile

end StackScript
