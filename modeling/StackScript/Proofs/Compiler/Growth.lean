import StackScript.Proofs.Compiler.Adequacy
import StackScript.Proofs.Compiler.Steps

/-!
# The pool of constants only grows

Compiling adds constants at the end of the pool and never touches those that
are there: not when it succeeds, and not when it fails, however many functions
are open at that moment (`Compile.Grows`). It is enough to look at the steps
of the compiler (`Compile.closed_grows`). Most of them leave the pool alone
(`Compile.Leaves`), and only two add a constant: a literal that is not there
yet, and the routine of a function that is closed.

So whoever knows how long the pool was can get it back from a compiler that
has failed (`Compiler.take_constants`).
-/

namespace StackScript

namespace Compile

variable {α β γ : Type}

/-- The state that a computation leaves behind, whether it succeeds or
fails. -/
def remains {σ : Type} : EStateM.Result CompileError σ α → σ
  | .ok _ s => s
  | .error _ s => s

/-! ## What a step leaves alone -/

/-- **A computation that leaves a part of the compiler as it is**, whether it
succeeds or fails. -/
def Leaves (part : Compiler → γ) (x : Compile α) : Prop := ∀ c, part (remains (x c)) = part c

section

variable (part : Compiler → γ)

/-- A value changes nothing at all. With `leaves_fail` it is where computations
end. -/
theorem leaves_pure (a : α) : Leaves part (pure a : Compile α) := fun _ => rfl

/-- Nor does a failure: the compiler is left as it was at that moment. That is
why `Leaves` can speak of failed computations as well. -/
theorem leaves_fail (fault : CompileFault) (span : Span) :
    Leaves part (fail fault span : Compile α) := fun _ => rfl

/-- An operand of two bytes is only checked, and the check changes nothing,
whichever way it goes. -/
theorem leaves_wide (n : Nat) (fault : CompileFault) (span : Span) :
    Leaves part (wide n fault span) := by
  unfold wide
  split
  · exact leaves_pure part _
  · exact leaves_fail part fault span

/-- So is one of one byte: the operand of a variable, of a builtin function or
of a capture. -/
theorem leaves_narrow (n : Nat) (fault : CompileFault) (span : Span) :
    Leaves part (narrow n fault span) := by
  unfold narrow
  split
  · exact leaves_pure part _
  · exact leaves_fail part fault span

variable {part}

/-- What two computations leave alone is left alone by one after the other.
If the first one fails, the second one is not to blame. -/
theorem Leaves.bind {x : Compile α} {f : α → Compile β} (hx : Leaves part x)
    (hf : ∀ a, Leaves part (f a)) : Leaves part (x >>= f) := by
  intro c
  have hc := hx c
  show part (remains (EStateM.bind x f c)) = part c
  unfold EStateM.bind
  cases hres : x c with
  | ok a c' =>
    rw [hres] at hc
    exact (hf a c').trans hc
  | error e c' =>
    rw [hres] at hc
    exact hc

end

/-! ## Steps that leave the pool alone

Code, names and constants are kept apart, so whatever is done to code and
names adds no constant. -/

/-- Appending an instruction is about code. It is by far the most common step,
and adds no constant. -/
theorem leaves_emit (i : Instruction) : Leaves Compiler.constants (emit i) := fun _ => rfl

/-- Loading a symbol appends an instruction, if its operand fits. There is one
case for each place that a value can live in. -/
theorem leaves_load (symbol : Symbol) (span : Span) :
    Leaves Compiler.constants (load symbol span) := by
  unfold load
  split
  · exact (leaves_wide _ _ _ _).bind fun _ => leaves_emit _
  · exact (leaves_narrow _ _ _ _).bind fun _ => leaves_emit _
  · exact (leaves_narrow _ _ _ _).bind fun _ => leaves_emit _
  · exact (leaves_narrow _ _ _ _).bind fun _ => leaves_emit _
  · exact leaves_emit _

/-- A closure is built from values that are loaded one after the other, so this
is loading again and again. -/
theorem leaves_loadAll (span : Span) (symbols : List Symbol) :
    Leaves Compiler.constants (loadAll span symbols) := by
  induction symbols with
  | nil => exact leaves_pure _ ()
  | cons symbol rest ih => exact (leaves_load symbol span).bind fun _ => ih

/-- Storing into a variable appends an instruction, if its operand fits. -/
theorem leaves_store (symbol : Symbol) (span : Span) :
    Leaves Compiler.constants (store symbol span) := by
  unfold store
  split
  · exact (leaves_wide _ _ _ _).bind fun _ => leaves_emit _
  · exact (leaves_narrow _ _ _ _).bind fun _ => leaves_emit _

/-- Finding a name may add to what functions capture, and that is all. The
tables of names have no constants in them. -/
theorem leaves_resolve (name : String) (span : Span) :
    Leaves Compiler.constants (resolve name span) := by
  intro c
  unfold resolve
  split <;> rfl

/-- Of the two kinds of jumps, both are code. Their targets are not known yet,
and are no constants either. -/
theorem leaves_jump (conditional : Bool) :
    Leaves Compiler.constants (Step.jump conditional).run := by
  cases conditional <;> exact fun _ => rfl

/-- A jump that is given its target changes in place. It fails if the code has
become too long, and then nothing has changed. -/
theorem leaves_bind (label : Label) (span : Span) :
    Leaves Compiler.constants (Compile.bind label span) := by
  intro c
  unfold Compile.bind
  split <;> rfl

/-- A function is opened without constants: the pool is one for all. -/
theorem leaves_openFunction (name : Option String) (params : List Ident) :
    Leaves Compiler.constants (openFunction name params) := by
  intro c
  rw [openFunction_eq_ok]
  rfl

/-- The last instruction of a function may become a return. It is changed in
place, so this too is about code. -/
theorem leaves_returnLast (span : Span) : Leaves Compiler.constants (returnLast span) := by
  intro c
  unfold returnLast
  split <;> rfl

/-- The code of a function is ended by a change to its last instruction, an
instruction more, or nothing. -/
theorem leaves_finishBody (span : Span) : Leaves Compiler.constants (finishBody span) := by
  have hlast : ∀ op, Leaves Compiler.constants (lastIs op) := fun _ _ => rfl
  have hnull : Leaves Compiler.constants
      (do if !(← lastIs .returnValue) then emit .returnNull) := by
    refine (hlast .returnValue).bind fun returned => ?_
    cases returned with
    | true => exact leaves_pure _ ()
    | false => exact leaves_emit .returnNull
  refine (hlast .pop).bind fun discarded => ?_
  cases discarded with
  | true => exact (leaves_returnLast span).bind fun _ => hnull
  | false => exact hnull

/-- A function that is closed gives up its code and its scope. Its constants
stay: they are in the pool of the whole program. -/
theorem leaves_leaveFunction (span : Span) : Leaves Compiler.constants (leaveFunction span) := by
  intro c
  unfold leaveFunction
  split <;> rfl

/-! ## Steps that add constants -/

/-- **A computation that adds constants** to those that are there, whether it
succeeds or fails. -/
def Grows (x : Compile α) : Prop := ∀ c, c.constants.toList <+: (remains (x c)).constants.toList

/-- What leaves the pool alone adds nothing to it. This takes the lemmas above
over to the weaker property that all steps have. -/
theorem Leaves.grows {x : Compile α} (h : Leaves Compiler.constants x) : Grows x := by
  intro c
  exact ⟨[], by rw [List.append_nil, h c]⟩

/-- Computations that add constants can be put one after the other. If the
first one fails, what it has added stays. -/
theorem Grows.bind {x : Compile α} {f : α → Compile β} (hx : Grows x) (hf : ∀ a, Grows (f a)) :
    Grows (x >>= f) := by
  intro c
  have hc := hx c
  show c.constants.toList <+: (remains (EStateM.bind x f c)).constants.toList
  unfold EStateM.bind
  cases hres : x c with
  | ok a c' =>
    rw [hres] at hc
    exact hc.trans (hf a c')
  | error e c' =>
    rw [hres] at hc
    exact hc

/-- The pool with one more constant begins with what it was, which is what
growing means for a single step. -/
theorem prefix_push (c : Compiler) (v : Value) :
    c.constants.toList <+: (c.push v).constants.toList := by
  show c.constants.toList <+: (c.constants.push v).toList
  rw [Array.toList_push]
  exact List.prefix_append _ _

/-- A literal is found in the pool or added at its end. It stays there even
if its index is too large, and the compilation fails. -/
theorem constants_literal (v : Value) (span : Span) (c : Compiler) :
    (remains (literal v span c)).constants = c.constants ∨
      (remains (literal v span c)).constants = (c.push v).constants := by
  rw [literal_eq]
  cases c.constants.findIdx? (sameLiteral v) with
  | some found => exact .inl (leaves_wide Compiler.constants _ _ _ c)
  | none => exact .inr (leaves_wide Compiler.constants _ _ _ (c.push v))

/-- Either way the pool begins with what it was. -/
theorem grows_literal (v : Value) (span : Span) : Grows (literal v span) := by
  intro c
  rcases constants_literal v span c with h | h
  · exact h ▸ List.prefix_rfl
  · exact h ▸ prefix_push c v

/-- A routine is added at the end, and it stays there too. It is never found
among those that are there, however similar it is. -/
theorem constants_addRoutine (code : Code) (locals params : Nat) (span : Span) (c : Compiler) :
    (remains (addRoutine code locals params span c)).constants =
      (c.push (.routine ⟨c.constants.size, code, locals, params⟩)).constants :=
  leaves_wide Compiler.constants c.constants.size .tooManyConstants span (c.push _)

/-- A function that is closed adds its routine. The constants of its body are
in the pool already. -/
theorem grows_buildClosure (params : Nat) (span : Span) : Grows (buildClosure params span) := by
  refine (leaves_leaveFunction span).grows.bind ?_
  rintro ⟨code, captures, locals⟩
  refine (leaves_narrow _ _ _ _).grows.bind fun captured => ?_
  refine (leaves_loadAll _ _).grows.bind fun _ => ?_
  refine Grows.bind (fun c => ?_) fun _ => (leaves_emit _).grows
  rw [constants_addRoutine]
  exact prefix_push c _

/-- **Every step of the compiler adds constants**, so every compilation does
(`Closed.statements`). -/
theorem closed_grows : Closed (m := Compile) Step.run fun _ y => Grows y where
  pure a := (leaves_pure _ a).grows
  bind hx hf := Grows.bind hx hf
  step s := by
    cases s with
    | fail fault span => exact (leaves_fail _ fault span).grows
    | narrow n fault span => exact (leaves_narrow _ n fault span).grows
    | wide n fault span => exact (leaves_wide _ n fault span).grows
    | number n span => exact grows_literal (.number n) span
    | string text span => exact grows_literal (.string text) span
    | resolve name span => exact (leaves_resolve name span).grows
    | define | atTopLevel | finishBranch => exact Leaves.grows fun _ => rfl
    | emit i => exact (leaves_emit i).grows
    | load symbol span => exact (leaves_load symbol span).grows
    | store symbol span => exact (leaves_store symbol span).grows
    | jump conditional => exact (leaves_jump conditional).grows
    | bind label span => exact (leaves_bind label span).grows
    | openFunction name params => exact (leaves_openFunction name params).grows
    | finishBody span => exact (leaves_finishBody span).grows
    | buildClosure params span => exact grows_buildClosure params span

end Compile

namespace Compiler

/-- **Compiling a program adds constants**, whether it succeeds or fails. So
what a program has added before it failed can be cut off again. -/
theorem prefix_compile (c : Compiler) (program : List Stmt) :
    c.constants.toList <+: (c.compile program).2.constants.toList := by
  have h := Compile.closed_grows.statements program c
  unfold compile
  split
  · next heq => rw [heq] at h; exact h
  · next heq => rw [heq] at h; exact h

/-- The constants that were there before are the first ones afterwards. A
session that has a program fail goes back to them in this way. -/
theorem take_constants (c : Compiler) (program : List Stmt) :
    (c.compile program).2.constants.take c.constants.size = c.constants := by
  obtain ⟨added, hadded⟩ := prefix_compile c program
  apply Array.ext'
  rw [Array.take_eq_extract, Array.toList_extract, List.extract_eq_take_drop, ← hadded,
    List.drop_zero, Nat.sub_zero, Array.size_eq_length_toList, List.take_left]

end Compiler

end StackScript
