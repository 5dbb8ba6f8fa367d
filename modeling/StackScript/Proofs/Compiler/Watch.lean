import StackScript.Proofs.Compiler.Growth
import StackScript.Proofs.Compiler.Tracking

/-!
# Watching the compiler

A compilation is a computation, of which only the end can be seen: the
compiler that is left, or the error and the compiler at that moment. What
holds *while* it goes on has to be said of a compilation that is **watched**.
A watched compilation does what the compiler does, step by step, and before
each step that concerns code it notes what is going to be done, and the
compiler as it is (`Moment`). What may come of it is said once, in
`Deed.Does`: so it can be told from the moments alone whether one of them has
been missed (`Moment.Leads`).

It also keeps the books on jumps. The compiler hands out a label for each jump
that waits for its target and forgets about it when the target is there; of an
open function, `Jumps` holds the labels that are still waiting and the targets
that have been given.

Watching is a handler of the compiler's steps (`Watched.watch`). A step that
changes code more than once is taken apart, so that there is a moment before
each change: a branch or a function is ended by looking at the last
instruction, and then by taking it back, making it a return, or appending
another one.

Two things are known of such a compilation because they are known of its
steps. Watching changes nothing (`Watched.closed_watches`): without what has
been noted, the watched compilation is the compilation. And the books are
complete (`Watched.closed_reports`): a routine that has joined the pool has
the code that a function had at a moment in which it was going to be closed.
-/

namespace StackScript

/-! ## What is seen -/

/-- **What a compiler is going to do next.** -/
inductive Deed where
  /-- Append an instruction. -/
  | append
  /-- Give a waiting jump its target. -/
  | settle
  /-- End the branch of a conditional. -/
  | endBranch (body : List Stmt)
  /-- Take back the last instruction. -/
  | takeBack
  /-- Make the last instruction a return. -/
  | exchange
  /-- Open a function. -/
  | openFunction
  /-- Close a function, whose code is ended. -/
  | closeFunction
  /-- Nothing any more. -/
  | rest

/-- **A compiler, and the jumps of the functions that are open.** -/
structure Sight where
  /-- The compiler. -/
  compiler : Compiler
  /-- The jumps of the innermost function. -/
  jumps : Jumps
  /-- The jumps of the functions around it, the nearest first. -/
  around : List Jumps

/-- The functions that are open, the innermost first: the code of each and its
jumps. -/
def Sight.functions (s : Sight) : List (Fragment × Jumps) :=
  (s.compiler.fragment, s.jumps) :: s.compiler.outer.zip s.around

/-- **What a deed does to the functions that are open.** It may also come to
nothing, where the compilation fails or where there is nothing to do. -/
inductive Deed.Does : Deed → List (Fragment × Jumps) → List (Fragment × Jumps) → Prop where
  | nothing {deed : Deed} {fs : List (Fragment × Jumps)} : Does deed fs fs
  /-- An instruction is appended that is no jump. -/
  | append {f : Fragment} {j : Jumps} {fs : List (Fragment × Jumps)} {i : Instruction}
      (h : i.target? = none) : Does .append ((f, j) :: fs) ((f.emit i, j) :: fs)
  /-- A jump is appended, and its label waits. -/
  | jump {f : Fragment} {j : Jumps} {fs : List (Fragment × Jumps)} (conditional : Bool) :
      Does .append ((f, j) :: fs)
        ((f.emit (.forward conditional (UInt16.ofNat Code.maxTarget)),
          { j with waiting := Code.labelAt f.code.size :: j.waiting }) :: fs)
  /-- A jump whose label waits is given the end of the code as its target. -/
  | settle {f g : Fragment} {j : Jumps} {fs : List (Fragment × Jumps)} {label : Label}
      (hwaits : label ∈ j.waiting) (h : f.bind label = .ok g) :
      Does .settle ((f, j) :: fs)
        ((g, ⟨j.waiting.erase label, f.code.size :: j.targets⟩) :: fs)
  | takeBack {f : Fragment} {j : Jumps} {fs : List (Fragment × Jumps)} :
      Does .takeBack ((f, j) :: fs) ((f.dropLast, j) :: fs)
  | exchange {f g : Fragment} {j : Jumps} {fs : List (Fragment × Jumps)}
      (h : f.replaceLast? .returnValue = some g) : Does .exchange ((f, j) :: fs) ((g, j) :: fs)
  | openFunction {fs : List (Fragment × Jumps)} :
      Does .openFunction fs ((.empty, .none) :: fs)
  | closeFunction {f : Fragment} {j : Jumps} {fs : List (Fragment × Jumps)} :
      Does .closeFunction ((f, j) :: fs) fs

/-- **A moment of a compilation.** -/
structure Moment where
  /-- What is going to be done. -/
  deed : Deed
  /-- What there is to see. -/
  sight : Sight

/-- **A moment that leads to another**: nothing else is done in between than
what the first one says. -/
def Moment.Leads (m m' : Moment) : Prop := m.deed.Does m.sight.functions m'.sight.functions

/-- **What a watched compilation has come to.** -/
structure Watch where
  /-- What there is to see now. -/
  now : Sight
  /-- What has been noted, in order. -/
  past : List Moment

namespace Watch

/-- A watch that begins with some names and constants. -/
def start (symbols : SymbolTable) (constants : Array Value) : Watch :=
  ⟨⟨.withState symbols constants, .none, []⟩, []⟩

/-- **All moments so far**, the present one included. -/
def moments (w : Watch) : List Moment := w.past ++ [⟨.rest, w.now⟩]

/-- The watch with the present moment noted. -/
def noted (w : Watch) (deed : Deed) : Watch := { w with past := w.past ++ [⟨deed, w.now⟩] }

end Watch

/-- **A watched computation of the compiler.** -/
abbrev Watched := EStateM CompileError Watch

namespace Watched

variable {α β : Type}

/-! ## Steps -/

/-- Does what the compiler does. -/
def act (x : Compile α) : Watched α := fun w =>
  match x w.now.compiler with
  | .ok a c => .ok a { w with now := { w.now with compiler := c } }
  | .error e c => .error e { w with now := { w.now with compiler := c } }

/-- Notes what is going to be done. -/
def note (deed : Deed) : Watched Unit := modify fun w => w.noted deed

/-- Does what the compiler does, after a note of it. -/
def noting (deed : Deed) (x : Compile α) : Watched α := do
  note deed
  act x

/-- Changes the books. -/
def modifyJumps (f : Jumps → List Jumps → Jumps × List Jumps) : Watched Unit :=
  modify fun w =>
    let (jumps, around) := f w.now.jumps w.now.around
    { w with now := ⟨w.now.compiler, jumps, around⟩ }

/-- Appends an instruction. -/
def emit (i : Instruction) : Watched Unit := noting .append (Compile.emit i)

/-- Appends a jump, whose label waits from now on. -/
def jump (conditional : Bool) : Watched Label := do
  let label ← noting .append (Compile.Step.jump conditional).run
  modifyJumps fun j around => ({ j with waiting := label :: j.waiting }, around)
  return label

/-- Makes a waiting jump land at the end of the code. -/
def bind (label : Label) (span : Span) : Watched Unit := do
  noting .settle (Compile.bind label span)
  let target := (← get).now.compiler.fragment.code.size
  modifyJumps fun j around => (⟨j.waiting.erase label, target :: j.targets⟩, around)

/-- **Ends the code of a branch**, one change at a time. -/
def finishBranch (body : List Stmt) : Watched Unit := do
  note (.endBranch body)
  if endsInExpr body && (← act (Compile.lastIs .pop)) then
    noting .takeBack (Compile.modifyFragment Fragment.dropLast)
  else emit .pushNull

/-- Opens a function, which has no jumps yet. -/
def openFunction (name : Option String) (params : List Ident) : Watched Unit := do
  noting .openFunction (Compile.openFunction name params)
  modifyJumps fun j around => (.none, j :: around)

/-- **Ends the code of a function**, one change at a time. -/
def finishBody (span : Span) : Watched Unit := do
  if ← act (Compile.lastIs .pop) then noting .exchange (Compile.returnLast span)
  if !(← act (Compile.lastIs .returnValue)) then emit .returnNull

/-- **Closes the innermost function**: its code, what it captures, and the
number of its variables. -/
def leaveFunction (span : Span) : Watched (Code × Array Symbol × Nat) := do
  let result ← noting .closeFunction (Compile.leaveFunction span)
  modifyJumps fun _ around => (around.headD .none, around.tail)
  return result

/-- Appends the instructions that push the values of symbols. -/
def loadAll (span : Span) : List Symbol → Watched Unit
  | [] => pure ()
  | symbol :: rest => do
    noting .append (Compile.load symbol span)
    loadAll span rest

/-- Closes the innermost function and appends the instructions that build its
closure. -/
def buildClosure (params : Nat) (span : Span) : Watched Unit := do
  let (code, captures, locals) ← leaveFunction span
  let captured ← act (Compile.narrow captures.size .tooManyCaptures span)
  loadAll span captures.toList
  emit (.makeClosure (← act (Compile.addRoutine code locals params span)) captured)

/-- **Takes a step while it is watched.** -/
def watch : Compile.Step α → Watched α
  | .fail fault span => act (Compile.fail fault span)
  | .narrow n fault span => act (Compile.narrow n fault span)
  | .wide n fault span => act (Compile.wide n fault span)
  | .number n span => act (Compile.literal (.number n) span)
  | .string text span => act (Compile.literal (.string text) span)
  | .resolve name span => act (Compile.resolve name span)
  | .define name => act (Compile.define name)
  | .atTopLevel => act Compile.atTopLevel
  | .emit i => emit i
  | .load symbol span => noting .append (Compile.load symbol span)
  | .store symbol span => noting .append (Compile.store symbol span)
  | .jump conditional => jump conditional
  | .bind label span => bind label span
  | .finishBranch block => finishBranch block.body
  | .openFunction name params => openFunction name params
  | .finishBody span => finishBody span
  | .buildClosure params span => buildClosure params span

/-! ## How steps end -/

section

variable {w w' : Watch}

/-- A watched computation whose first part succeeds goes on with the second
part. -/
theorem bind_of_ok {x : Watched α} {a : α} (f : α → Watched β) (h : x w = .ok a w') :
    (x >>= f) w = f a w' := by
  show EStateM.bind x f w = f a w'
  rw [EStateM.bind, h]

/-- One whose first part fails is over. -/
theorem bind_of_error {x : Watched α} {e : CompileError} (f : α → Watched β)
    (h : x w = .error e w') : (x >>= f) w = .error e w' := by
  show EStateM.bind x f w = .error e w'
  rw [EStateM.bind, h]

/-- A step that is not noted changes the compiler, and leaves what has been
noted alone. -/
theorem act_of_ok {x : Compile α} {a : α} {c : Compiler} (h : x w.now.compiler = .ok a c) :
    act x w = .ok a { w with now := { w.now with compiler := c } } := by
  rw [act, h]

/-- So does one that fails: the compiler is what it has become until then. -/
theorem act_of_error {x : Compile α} {e : CompileError} {c : Compiler}
    (h : x w.now.compiler = .error e c) :
    act x w = .error e { w with now := { w.now with compiler := c } } := by
  rw [act, h]

/-- What a step leaves behind is what the compiler leaves behind. -/
theorem remains_act (x : Compile α) (w : Watch) :
    Compile.remains (act x w) =
      { w with now := { w.now with compiler := Compile.remains (x w.now.compiler) } } := by
  unfold act
  cases x w.now.compiler <;> rfl

/-- A function that is closed leaves the books of the function around it. -/
theorem leaveFunction_of_ok {span : Span} {result : Code × Array Symbol × Nat} {c : Compiler}
    (h : Compile.leaveFunction span w.now.compiler = .ok result c) :
    leaveFunction span w = .ok result ⟨⟨c, w.now.around.headD .none, w.now.around.tail⟩,
      w.past ++ [⟨.closeFunction, w.now⟩]⟩ := by
  have hnoting : noting .closeFunction (Compile.leaveFunction span) w = .ok result
      { w.noted .closeFunction with now := { w.now with compiler := c } } :=
    act_of_ok (w := w.noted .closeFunction) h
  exact bind_of_ok _ hnoting

/-- The moment of closing a function is noted before it is tried, so it is on
record even if there is nothing to close. -/
theorem leaveFunction_of_error {span : Span} {e : CompileError} {c : Compiler}
    (h : Compile.leaveFunction span w.now.compiler = .error e c) :
    leaveFunction span w = .error e
      { w.noted .closeFunction with now := { w.now with compiler := c } } :=
  bind_of_error _ (act_of_error (w := w.noted .closeFunction) h)

/-- **The code that is taken from a function is the code that it had** in the
moment in which it was going to be closed. -/
theorem closing_of_leaveFunction {span : Span} {result : Code × Array Symbol × Nat}
    (h : leaveFunction span w = .ok result w') :
    ⟨.closeFunction, w.now⟩ ∈ w'.past ∧ w.now.compiler.fragment.code = result.1 := by
  cases hleave : Compile.leaveFunction span w.now.compiler with
  | error e c =>
    rw [leaveFunction_of_error hleave] at h
    cases h
  | ok result' c =>
    rw [leaveFunction_of_ok hleave] at h
    cases h
    refine ⟨List.mem_append_right _ List.mem_cons_self, ?_⟩
    unfold Compile.leaveFunction at hleave
    split at hleave <;> cases hleave
    rfl

end

/-! ## Watching changes nothing -/

/-- The outcome of a compilation, without what has been noted. -/
def unwatched : EStateM.Result CompileError Watch α → EStateM.Result CompileError Compiler α
  | .ok a w => .ok a w.now.compiler
  | .error e w => .error e w.now.compiler

/-- **A watched computation does what a computation of the compiler does.** -/
def Watches (x : Watched α) (y : Compile α) : Prop := ∀ w, unwatched (x w) = y w.now.compiler

namespace Watches

/-- A value is there without a step. The lemmas that follow say of each step
that watching it does not change it. -/
theorem pure (a : α) : Watches (Pure.pure a) (Pure.pure a) := fun _ => rfl

/-- Watched computations can be put one after the other. -/
theorem bind {x : Watched α} {y : Compile α} {f : α → Watched β} {g : α → Compile β}
    (hx : Watches x y) (hf : ∀ a, Watches (f a) (g a)) : Watches (x >>= f) (y >>= g) := by
  intro w
  have hw := hx w
  show unwatched (EStateM.bind x f w) = EStateM.bind y g w.now.compiler
  unfold EStateM.bind
  rw [← hw]
  cases x w with
  | ok a w' => exact hf a w'
  | error e w' => rfl

/-- A step that is not noted is the step itself. -/
theorem act (x : Compile α) : Watches (Watched.act x) x := by
  intro w
  unfold Watched.act
  cases x w.now.compiler <;> rfl

/-- What is noted before does not count. -/
theorem note_bind (deed : Deed) {g : Unit → Watched β} {y : Compile β} (hg : Watches (g ()) y) :
    Watches (note deed >>= g) y := fun w => hg (w.noted deed)

/-- Neither does what is noted afterwards. -/
theorem followed {x : Watched α} {y : Compile α} {f : α → Watched α} (hx : Watches x y)
    (hf : ∀ a, Watches (f a) (Pure.pure a)) : Watches (x >>= f) y := by
  have h := hx.bind hf
  rwa [bind_pure] at h

/-- A step of the compiler after a note is the step. -/
theorem noting (deed : Deed) (x : Compile α) : Watches (Watched.noting deed x) x :=
  note_bind deed (act x)

end Watches

/-- A jump is noted and its label starts to wait, which the compiler knows
nothing of. -/
theorem watches_jump (conditional : Bool) :
    Watches (jump conditional) (Compile.Step.jump conditional).run :=
  (Watches.noting _ _).followed fun _ _ => rfl

/-- A jump that gets its target is noted, and stops waiting. -/
theorem watches_bind (label : Label) (span : Span) :
    Watches (bind label span) (Compile.bind label span) :=
  (Watches.noting _ _).followed fun _ _ => rfl

/-- How a branch is ended, by whether it ends in an expression. -/
theorem finishBranch_eq (block : Block) (f : Fragment) :
    Compile.finishBranch block f =
      if endsInExpr block.body && f.lastIs .pop then f.dropLast else f.emit .pushNull := by
  unfold Compile.finishBranch endsInExpr
  cases block.body.getLast? with
  | none => rfl
  | some s => cases s <;> rfl

/-- **A branch is ended the same way when it is watched.** The compiler
decides what to do and does it at once; here the two are apart. -/
theorem watches_finishBranch (block : Block) :
    Watches (finishBranch block.body)
      (Compile.modifyFragment (Compile.finishBranch block)) := by
  refine .note_bind _ fun w => ?_
  have hrun : Compile.modifyFragment (Compile.finishBranch block) w.now.compiler =
      .ok () { w.now.compiler with
        fragment := Compile.finishBranch block w.now.compiler.fragment } := rfl
  rw [hrun, finishBranch_eq]
  show unwatched ((if endsInExpr block.body && w.now.compiler.fragment.lastIs .pop then
      Watched.noting .takeBack (Compile.modifyFragment Fragment.dropLast)
    else emit .pushNull : Watched Unit) w) = _
  split
  · exact Watches.noting _ _ w
  · exact Watches.noting _ _ w

/-- A function that is opened is noted, and has no jumps waiting at first. -/
theorem watches_openFunction (name : Option String) (params : List Ident) :
    Watches (openFunction name params) (Compile.openFunction name params) :=
  (Watches.noting _ _).followed fun _ _ => rfl

/-- **So is a function.** Each change that the compiler makes to the end of
its code is one that is noted. -/
theorem watches_finishBody (span : Span) : Watches (finishBody span) (Compile.finishBody span) := by
  have hnull : Watches (do if !(← act (Compile.lastIs .returnValue)) then emit .returnNull)
      (do if !(← Compile.lastIs .returnValue) then Compile.emit .returnNull) := by
    refine (Watches.act _).bind fun returned => ?_
    cases returned with
    | true => exact .pure ()
    | false => exact .noting _ _
  refine (Watches.act _).bind fun discarded => ?_
  cases discarded with
  | true => exact (Watches.noting _ _).bind fun _ => hnull
  | false => exact hnull

/-- A function that is closed is noted. -/
theorem watches_leaveFunction (span : Span) :
    Watches (leaveFunction span) (Compile.leaveFunction span) :=
  (Watches.noting _ _).followed fun _ _ => rfl

/-- What a closure captures is loaded one after the other, and each of them is
noted. -/
theorem watches_loadAll (span : Span) (symbols : List Symbol) :
    Watches (loadAll span symbols) (Compile.loadAll span symbols) := by
  induction symbols with
  | nil => exact .pure ()
  | cons symbol rest ih => exact (Watches.noting _ _).bind fun _ => ih

/-- A closure is made as without watching, whatever is noted on the way. -/
theorem watches_buildClosure (params : Nat) (span : Span) :
    Watches (buildClosure params span) (Compile.buildClosure params span) := by
  refine (watches_leaveFunction span).bind ?_
  rintro ⟨code, captures, locals⟩
  refine (Watches.act _).bind fun captured => (watches_loadAll _ _).bind fun _ => ?_
  exact (Watches.act _).bind fun _ => .noting _ _

/-- **Watching changes no step**, so it changes no compilation. -/
theorem closed_watches : Compile.Closed watch Watches where
  pure := .pure
  bind hx hf := hx.bind hf
  step s := by
    cases s with
    | fail fault span => exact .act (Compile.fail fault span)
    | define name => exact .act (Compile.define name)
    | atTopLevel => exact .act Compile.atTopLevel
    | narrow | wide | number | string | resolve => exact .act _
    | emit | load | store => exact .noting _ _
    | jump conditional => exact watches_jump conditional
    | bind label span => exact watches_bind label span
    | finishBranch block => exact watches_finishBranch block
    | openFunction name params => exact watches_openFunction name params
    | finishBody span => exact watches_finishBody span
    | buildClosure params span => exact watches_buildClosure params span

/-! ## The books are complete -/

end Watched

/-- **The code of a routine is on record**: a function had it when it was
going to be closed. -/
def Watch.Closed (w : Watch) (r : Routine) : Prop :=
  ∃ m ∈ w.past, m.deed = .closeFunction ∧ m.sight.compiler.fragment.code = r.code

/-- **What comes after a watch**: what has been noted stays noted, and the
routines that are new in the pool are on record. -/
structure Watch.Records (w w' : Watch) : Prop where
  /-- What was noted is still there. -/
  past : w.past ⊆ w'.past
  /-- A routine was in the pool before, or a function with its code has been
  closed. -/
  routines : ∀ r, .routine r ∈ w'.now.compiler.constants →
    .routine r ∈ w.now.compiler.constants ∨ w'.Closed r

namespace Watch

variable {w w' w'' : Watch}

/-- A watch stays on record as long as nothing is forgotten. -/
theorem Closed.mono {r : Routine} (h : w.Closed r) (hpast : w.past ⊆ w'.past) : w'.Closed r := by
  obtain ⟨m, hm, hclosed⟩ := h
  exact ⟨m, hpast hm, hclosed⟩

/-- A watch whose routines were all there before. -/
theorem Records.of_routines (hpast : w.past ⊆ w'.past)
    (h : ∀ r, .routine r ∈ w'.now.compiler.constants → .routine r ∈ w.now.compiler.constants) :
    w.Records w' where
  past := hpast
  routines r hr := .inl (h r hr)

/-- What is on record is on record. -/
theorem Records.refl (w : Watch) : w.Records w := .of_routines (fun _ h => h) fun _ h => h

/-- Nothing is ever taken off the record, so what was recorded on the way is on
record at the end. -/
theorem Records.trans (h : w.Records w') (h' : w'.Records w'') : w.Records w'' where
  past := fun _ hm => h'.past (h.past hm)
  routines r hr := by
    rcases h'.routines r hr with hr | hclosed
    · exact (h.routines r hr).imp id fun hclosed => hclosed.mono h'.past
    · exact .inr hclosed

end Watch

namespace Watched

open Compile (remains)

variable {α β : Type} {w₀ w : Watch}

/-- **A watched computation that keeps the books**, whether it succeeds or
fails. -/
def Reports (x : Watched α) : Prop := ∀ w : Watch, w.Records (remains (x w))

/-- What has been recorded up to the middle of a computation is recorded up to
its end. -/
theorem records_bind {x : Watched α} {f : α → Watched β} (hx : w₀.Records (remains (x w)))
    (hf : ∀ a w', x w = .ok a w' → w₀.Records w' → w₀.Records (remains (f a w'))) :
    w₀.Records (remains ((x >>= f) w)) := by
  show w₀.Records (remains (EStateM.bind x f w))
  unfold EStateM.bind
  cases hres : x w with
  | ok a w' =>
    rw [hres] at hx
    exact hf a w' hres hx
  | error e w' =>
    rw [hres] at hx
    exact hx

namespace Reports

/-- A value adds no routine. The lemmas that follow go through the steps, to
show that a routine can only come from a function that has been closed. -/
theorem pure (a : α) : Reports (Pure.pure a : Watched α) := fun w => .refl w

/-- Looking adds none. -/
theorem get : Reports (MonadState.get : Watched Watch) := fun w => .refl w

/-- Of two computations in a row, the second goes on with the books that the
first has kept. -/
theorem bind {x : Watched α} {f : α → Watched β} (hx : Reports x) (hf : ∀ a, Reports (f a)) :
    Reports (x >>= f) := by
  intro w
  exact records_bind (hx w) fun a w' _ h => h.trans (hf a w')

/-- A step of the compiler that adds no routine leaves the books as they
are. -/
theorem act {x : Compile α}
    (hx : ∀ c r, .routine r ∈ (remains (x c)).constants → .routine r ∈ c.constants) :
    Reports (Watched.act x) := by
  intro w
  rw [remains_act]
  exact .of_routines (fun _ h => h) (hx w.now.compiler)

/-- Neither does a step that leaves the pool alone. -/
theorem leaving {x : Compile α} (hx : Compile.Leaves Compiler.constants x) :
    Reports (Watched.act x) := act fun c _ hr => hx c ▸ hr

/-- Noting something adds to the record, and nothing to the pool. -/
theorem note (deed : Deed) : Reports (Watched.note deed) := fun _ =>
  .of_routines (fun _ h => List.mem_append_left _ h) fun _ h => h

/-- A step that leaves the pool alone may be noted. -/
theorem noting (deed : Deed) {x : Compile α} (hx : Compile.Leaves Compiler.constants x) :
    Reports (Watched.noting deed x) := (note deed).bind fun _ => leaving hx

/-- Which jumps wait has nothing to do with the pool. -/
theorem modifyJumps (f : Jumps → List Jumps → Jumps × List Jumps) :
    Reports (Watched.modifyJumps f) := fun _ => .of_routines (fun _ h => h) fun _ h => h

end Reports

/-- Appending an instruction adds no routine. -/
theorem reports_emit (i : Instruction) : Reports (emit i) := .noting _ (Compile.leaves_emit i)

/-- A literal is a number or a string, and no routine. -/
theorem reports_literal {v : Value} (hv : v.type ≠ .function) (span : Span) :
    Reports (act (Compile.literal v span)) := by
  refine .act fun c r hr => ?_
  rcases Compile.constants_literal v span c with h | h <;> rw [h] at hr
  · exact hr
  · refine (Array.mem_push.1 hr).resolve_right fun hr => hv ?_
    rw [← hr, Value.type]

/-- Nor does the end of a branch, which only takes an instruction back or
appends one. -/
theorem reports_finishBranch (body : List Stmt) : Reports (finishBranch body) := by
  refine (Reports.note _).bind fun _ => (Reports.leaving fun _ => rfl).bind fun discarded => ?_
  split
  · exact .noting _ fun _ => rfl
  · exact reports_emit _

/-- Nor does the end of a body. -/
theorem reports_finishBody (span : Span) : Reports (finishBody span) := by
  have hnull : Reports (do if !(← act (Compile.lastIs .returnValue)) then emit .returnNull) := by
    refine (Reports.leaving fun _ => rfl).bind fun returned => ?_
    cases returned with
    | true => exact .pure ()
    | false => exact reports_emit _
  refine (Reports.leaving fun _ => rfl).bind fun discarded => ?_
  cases discarded with
  | true => exact (Reports.noting _ (Compile.leaves_returnLast span)).bind fun _ => hnull
  | false => exact hnull

/-- Nor does loading what a closure captures. -/
theorem reports_loadAll (span : Span) (symbols : List Symbol) : Reports (loadAll span symbols) := by
  induction symbols with
  | nil => exact .pure ()
  | cons symbol rest ih =>
    exact (Reports.noting _ (Compile.leaves_load symbol span)).bind fun _ => ih

/-- A routine may be added if its code is on record. -/
theorem records_addRoutine {m : Moment} (hm : m ∈ w.past) (hdeed : m.deed = .closeFunction)
    (locals params : Nat) (span : Span) :
    w.Records (remains
      (act (Compile.addRoutine m.sight.compiler.fragment.code locals params span) w)) := by
  rw [remains_act]
  refine ⟨fun _ h => h, fun r hr => ?_⟩
  rw [Compile.constants_addRoutine] at hr
  rcases Array.mem_push.1 hr with hr | hr
  · exact .inl hr
  · cases hr
    exact .inr ⟨m, hm, hdeed, rfl⟩

/-- **A function that is closed and built is on record with its code.** The
moment of closing is noted first, and is still there when the routine is
added: nothing is forgotten in between. -/
theorem reports_buildClosure (params : Nat) (span : Span) :
    Reports (buildClosure params span) := by
  intro w
  have hleave : Reports (leaveFunction span) :=
    (Reports.noting _ (Compile.leaves_leaveFunction span)).bind fun result =>
      (Reports.modifyJumps _).bind fun _ => .pure result
  refine records_bind (hleave w) ?_
  rintro ⟨code, captures, locals⟩ w₁ hok h₁
  obtain ⟨hclosing, rfl⟩ := closing_of_leaveFunction hok
  refine h₁.trans ?_
  have hnarrow := Reports.leaving (Compile.leaves_narrow _ captures.size .tooManyCaptures span)
  refine records_bind (hnarrow w₁) fun captured w₂ _ h₂ => ?_
  refine records_bind (h₂.trans (reports_loadAll span _ w₂)) fun _ w₃ _ h₃ => ?_
  have hadd := records_addRoutine (h₃.past hclosing) rfl locals params span
  exact records_bind (h₃.trans hadd) fun _ w₄ _ h₄ => h₄.trans (reports_emit _ w₄)

/-- **Every step keeps the books**, so every compilation does. -/
theorem closed_reports : Compile.Closed watch fun x _ => Reports x where
  pure := .pure
  bind hx hf := Reports.bind hx hf
  step s := by
    cases s with
    | fail fault span => exact .leaving (Compile.leaves_fail _ fault span)
    | narrow n fault span => exact .leaving (Compile.leaves_narrow _ n fault span)
    | wide n fault span => exact .leaving (Compile.leaves_wide _ n fault span)
    | number n span => exact reports_literal (beq_eq_false_iff_ne.1 rfl) span
    | string text span => exact reports_literal (beq_eq_false_iff_ne.1 rfl) span
    | resolve name span => exact .leaving (Compile.leaves_resolve name span)
    | define name => exact .leaving (x := Compile.define name) fun _ => rfl
    | atTopLevel => exact .leaving (x := Compile.atTopLevel) fun _ => rfl
    | emit i => exact reports_emit i
    | load symbol span => exact .noting _ (Compile.leaves_load symbol span)
    | store symbol span => exact .noting _ (Compile.leaves_store symbol span)
    | jump conditional =>
      exact (Reports.noting _ (Compile.leaves_jump conditional)).bind fun label =>
        (Reports.modifyJumps _).bind fun _ => .pure label
    | bind label span =>
      exact (Reports.noting _ (Compile.leaves_bind label span)).bind fun _ =>
        Reports.get.bind fun _ => .modifyJumps _
    | finishBranch block => exact reports_finishBranch block.body
    | openFunction name params =>
      exact (Reports.noting _ (Compile.leaves_openFunction name params)).bind fun _ =>
        .modifyJumps _
    | finishBody span => exact reports_finishBody span
    | buildClosure params span => exact reports_buildClosure params span

end Watched

end StackScript
