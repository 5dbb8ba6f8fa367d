import Mathlib.Data.List.Chain
import Mathlib.Data.List.Forall2
import StackScript.Proofs.Compiler.Watch
import StackScript.Syntax.Parser

/-!
# The last instruction is known at every moment

While programs are compiled, what each open function remembers of its last
instruction is true, from the first moment to the last, whether the compilation
goes on or is about to fail. Nothing is lost between two moments: each leads to
the next (`Moment.Leads`), so that what is true of all of them is true at every
point.

All steps of the compiler go through one lemma (`Watch.Sound.step`). Most of
them append an instruction that neither discards a value nor jumps, or leave
code alone. Only statements discard values. So the code of an expression never
ends in an instruction that does, nor does the code of a branch, which has it
taken back: this is what `Sight.LeavesValue` adds to the fact that every jump
has been settled that was handed out (`Sight.Settled`). For the same reason no
two values are discarded one after the other, and taking one back leaves an
instruction that is known.

An expression as the last statement of a branch is therefore always found to be
discarded, and the byte that is taken back or overwritten is always the one of
that instruction (`Compiler.last_instruction_is_known`).
-/

namespace StackScript

/-! ## Moments -/

/-- **The last instruction of every open function is known.** -/
structure Sight.Tracked (s : Sight) : Prop where
  /-- That of the innermost one. -/
  inner : s.compiler.fragment.Tracked s.jumps
  /-- Those of the functions around it. -/
  around : List.Forall₂ Fragment.Tracked s.compiler.outer s.around
  /-- Each function has a scope of its own. -/
  scopes : s.compiler.outer.length ≤ s.compiler.symbols.outer.length

/-- Code whose jumps are tracked has its last instruction on record, in every
function that is open. This is the half of the invariant that the moments are
about. -/
theorem Sight.Tracked.knowsLast {s : Sight} (h : s.Tracked) :
    ∀ f ∈ s.compiler.fragment :: s.compiler.outer, f.KnowsLast := by
  refine List.forall_mem_cons.2 ⟨h.inner.knowsLast, ?_⟩
  have haround := h.around
  generalize s.compiler.outer = outer at haround ⊢
  generalize s.around = around at haround
  induction haround with
  | nil => exact List.forall_mem_nil _
  | cons hf _ ih => exact List.forall_mem_cons.2 ⟨hf.knowsLast, ih⟩

/-- Whether the last instruction has to discard a value before a deed: always,
if it is taken back or overwritten, and at the end of a branch if that ends in
an expression. -/
def Deed.needsPop : Deed → Bool
  | .takeBack | .exchange => true
  | .endBranch body => endsInExpr body
  | _ => false

/-- **A moment in which the compiler may do what it is going to do.** -/
structure Moment.Sound (m : Moment) : Prop where
  /-- The last instructions are known. -/
  tracked : m.sight.Tracked
  /-- A value is discarded last if it has to be. -/
  pop : m.deed.needsPop = true → m.sight.compiler.fragment.lastIs .pop = true

/-- A moment before a deed that asks for nothing. -/
theorem Sight.Tracked.sound {s : Sight} (h : s.Tracked) (deed : Deed)
    (hdeed : deed.needsPop = false) :
    Moment.Sound ⟨deed, s⟩ where
  tracked := h
  pop hneeds := absurd (hdeed.symm.trans hneeds) Bool.false_ne_true

/-- **A watch that has seen sound moments only**, and has missed nothing. -/
structure Watch.Sound (w : Watch) : Prop where
  /-- All moments that have been noted are sound. -/
  past : ∀ m ∈ w.past, m.Sound
  /-- The last instructions are known now. -/
  now : w.now.Tracked
  /-- At first there was no code. -/
  origin : (w.moments.map fun m => m.sight.functions).head? = some [(.empty, .none)]
  /-- Each moment leads to the next one. -/
  run : w.moments.IsChain Moment.Leads

namespace Watch.Sound

variable {w : Watch}

/-- All moments are those of the past and then the present one. -/
theorem functions_moments (w : Watch) : (w.moments.map fun m => m.sight.functions) =
    (w.past.map fun m => m.sight.functions) ++ [w.now.functions] := List.map_append

/-- At the beginning nothing has been written, so there is nothing that could be
wrong. -/
theorem start (symbols : SymbolTable) (constants : Array Value) :
    (Watch.start symbols constants).Sound where
  past := List.forall_mem_nil _
  now := ⟨Fragment.tracked_empty, .nil, Nat.zero_le _⟩
  origin := rfl
  run := List.isChain_singleton _

/-- The chain up to now goes on with another moment that looks the same. -/
theorem run_concat (h : w.Sound) {m : Moment} (hsame : m.sight.functions = w.now.functions) :
    List.IsChain Moment.Leads (w.past ++ [m]) := by
  obtain ⟨hpast, -, hlast⟩ := List.isChain_append.1 h.run
  refine List.isChain_append.2 ⟨hpast, List.isChain_singleton _, fun m₁ hm₁ m₂ hm₂ => ?_⟩
  cases Option.some.inj hm₂
  rw [Moment.Leads, hsame]
  exact hlast m₁ hm₁ ⟨.rest, w.now⟩ rfl

/-- **A step**: what is going to be done is noted, and done. -/
theorem step (h : w.Sound) {deed : Deed} (hm : Moment.Sound ⟨deed, w.now⟩) {s : Sight}
    (hdoes : deed.Does w.now.functions s.functions) (hs : s.Tracked) :
    Watch.Sound ⟨s, w.past ++ [⟨deed, w.now⟩]⟩ where
  past := List.forall_mem_append.2 ⟨h.past, List.forall_mem_singleton.2 hm⟩
  now := hs
  origin := by
    have horigin := h.origin
    rw [functions_moments] at horigin ⊢
    rw [List.head?_append, List.map_append]
    exact Option.or_eq_some_iff.2 (.inl horigin)
  run := by
    refine List.isChain_append.2 ⟨h.run_concat rfl, List.isChain_singleton _,
      fun m₁ hm₁ m₂ hm₂ => ?_⟩
    rw [List.getLast?_concat] at hm₁
    cases Option.some.inj hm₁
    cases Option.some.inj hm₂
    exact hdoes

/-- Something else than code and jumps changes. -/
theorem aside (h : w.Sound) {s : Sight} (hsame : s.functions = w.now.functions) (hs : s.Tracked) :
    Watch.Sound { w with now := s } where
  past := h.past
  now := hs
  origin := by
    have horigin := h.origin
    rw [functions_moments] at horigin ⊢
    exact hsame ▸ horigin
  run := h.run_concat hsame

end Watch.Sound

/-! ## From one moment to a later one -/

namespace Sight

variable {s₁ s₂ s₃ : Sight}

/-- **No jump is left waiting that did not wait before**, and the functions
around are the same. -/
structure Settled (s s' : Sight) : Prop where
  /-- The same jumps wait. -/
  waiting : s'.jumps.waiting = s.jumps.waiting
  /-- The functions around have the same jumps. -/
  around : s'.around = s.around

/-- **A value has been left on the stack.** -/
structure LeavesValue (s s' : Sight) : Prop extends Settled s s' where
  /-- It has not been discarded. -/
  value : s'.compiler.fragment.lastIs .pop = false

/-- **A jump has been appended**, and waits from now on. -/
structure HandsOut (s : Sight) (label : Label) (s' : Sight) : Prop where
  /-- Its label is the latest one that waits. -/
  waiting : s'.jumps.waiting = label :: s.jumps.waiting
  /-- The functions around have the same jumps. -/
  around : s'.around = s.around
  /-- A jump discards nothing. -/
  value : s'.compiler.fragment.lastIs .pop = false

/-- **A jump has been settled**, and waits no more. -/
structure Settles (s : Sight) (label : Label) (s' : Sight) : Prop where
  /-- The others still wait. -/
  waiting : s'.jumps.waiting = s.jumps.waiting.erase label
  /-- The functions around have the same jumps. -/
  around : s'.around = s.around
  /-- No value is discarded at the target. -/
  value : s'.compiler.fragment.lastIs .pop = false

/-- Nothing has been compiled yet. -/
theorem Settled.refl (s : Sight) : s.Settled s := ⟨rfl, rfl⟩

/-- One phrase has been compiled after another: the jumps that wait are the same
as at the beginning. -/
theorem Settled.trans (h : s₁.Settled s₂) (h' : s₂.Settled s₃) : s₁.Settled s₃ :=
  ⟨h'.waiting.trans h.waiting, h'.around.trans h.around⟩

end Sight

namespace Watched

variable {α β : Type} {w : Watch} {s : Sight} {P Q : α → Sight → Prop}

/-- **A watched computation sees sound moments only**, and what holds in the end
if it succeeds. -/
def Keeps (x : Watched α) (w : Watch) (Q : α → Sight → Prop) : Prop :=
  match x w with
  | .ok a w' => w'.Sound ∧ Q a w'.now
  | .error _ w' => w'.Sound

/-- A step that succeeds keeps the record sound if the record is sound after
it. -/
theorem Keeps.of_ok {x : Watched α} {a : α} {w' : Watch} (h : x w = .ok a w') (hw' : w'.Sound)
    (hQ : Q a w'.now) :
    Keeps x w Q := by
  rw [Keeps, h]
  exact ⟨hw', hQ⟩

/-- So does one that fails; nothing else is asked of it, since nothing is
compiled any more. -/
theorem Keeps.of_error {x : Watched α} {e : CompileError} {w' : Watch} (h : x w = .error e w')
    (hw' : w'.Sound) :
    Keeps x w Q := by
  rw [Keeps, h]
  exact hw'

/-- What is kept depends on what happens alone, so a computation may be replaced
by one that does the same. -/
theorem Keeps.of_eq {x y : Watched α} {w' : Watch} (h : x w = y w') (hy : Keeps y w' Q) :
    Keeps x w Q := by
  rw [Keeps, h]
  exact hy

/-- What is known of the sight afterwards may be weakened. -/
theorem Keeps.mono {x : Watched α} (hx : Keeps x w P) (h : ∀ a s, P a s → Q a s) : Keeps x w Q := by
  unfold Keeps at *
  split at hx
  · exact ⟨hx.1, h _ _ hx.2⟩
  · exact hx

/-- One computation after another. The second one starts from a sound record,
and from what the first one leaves behind. -/
theorem Keeps.bind {x : Watched α} {f : α → Watched β} {R : β → Sight → Prop} (hx : Keeps x w P)
    (hf : ∀ a w', w'.Sound → P a w'.now → Keeps (f a) w' R) : Keeps (x >>= f) w R := by
  unfold Keeps at hx
  split at hx
  · next a w' heq => exact .of_eq (bind_of_ok f heq) (hf a w' hx.1 hx.2)
  · next e w' heq => exact .of_error (bind_of_error f heq) hx

/-! ## Steps that leave code alone -/

/-- **All code that is being written**, and how many scopes are open. -/
def written (c : Compiler) : Fragment × List Fragment × Nat :=
  (c.fragment, c.outer, c.symbols.outer.length)

/-- Finding a name opens and closes no scope. -/
theorem leaves_resolve (name : String) (span : Span) :
    Compile.Leaves written (Compile.resolve name span) := by
  intro c
  unfold Compile.resolve
  split
  · next symbols hresolve =>
    show (c.fragment, c.outer, symbols.outer.length) = _
    rw [SymbolTable.length_outer_of_resolve hresolve, written]
  · rfl

/-- A literal joins the pool, where no code is. -/
theorem leaves_literal (v : Value) (span : Span) :
    Compile.Leaves written (Compile.literal v span) := by
  intro c
  rw [Compile.literal_eq]
  cases c.constants.findIdx? (Compile.sameLiteral v) with
  | some found => exact Compile.leaves_wide written _ _ _ c
  | none => exact Compile.leaves_wide written _ _ _ (c.push v)

/-- So does a routine. Its code is not written any more. -/
theorem leaves_addRoutine (code : Code) (locals params : Nat) (span : Span) :
    Compile.Leaves written (Compile.addRoutine code locals params span) := fun c =>
  Compile.leaves_wide written c.constants.size .tooManyConstants span (c.push _)

/-- **A step that leaves code alone is no moment**, and nothing has to be
noted before it. -/
theorem keeps_act {x : Compile α} (hx : Compile.Leaves written x) (hw : w.Sound)
    (h : s.Settled w.now) : Keeps (act x) w fun _ s' => s.Settled s' := by
  have hsound : ∀ c : Compiler, written c = written w.now.compiler →
      Watch.Sound { w with now := { w.now with compiler := c } } := by
    intro c hc
    obtain ⟨hfragment, hc⟩ := Prod.mk.inj hc
    obtain ⟨houter, hscopes⟩ := Prod.mk.inj hc
    refine hw.aside ?_ ⟨?_, ?_, ?_⟩
    · rw [Sight.functions, Sight.functions, hfragment, houter]
    · rw [hfragment]
      exact hw.now.inner
    · rw [houter]
      exact hw.now.around
    · rw [houter, hscopes]
      exact hw.now.scopes
  have hc := hx w.now.compiler
  cases hres : x w.now.compiler with
  | ok a c =>
    rw [hres] at hc
    exact .of_ok (act_of_ok hres) (hsound c hc) ⟨h.waiting, h.around⟩
  | error e c =>
    rw [hres] at hc
    exact .of_error (act_of_error hres) (hsound c hc)

/-! ## Steps that append -/

/-- **An instruction that neither discards a value nor jumps.** -/
structure Plain (i : Instruction) : Prop where
  /-- It discards nothing. -/
  op : i.op ≠ .pop
  /-- It is no jump. -/
  target : i.target? = none

/-- **A computation that appends a plain instruction**, or fails and changes
nothing. -/
def Appends (x : Compile Unit) : Prop :=
  ∀ c, (∃ i, Plain i ∧ x c = .ok () (c.emit i)) ∨ ∃ e, x c = .error e c

/-- Appending an instruction that is neither a jump nor one that discards a
value. -/
theorem appends_emit {i : Instruction} (hi : Plain i) : Appends (Compile.emit i) :=
  fun _ => .inl ⟨i, hi, rfl⟩

/-- Appending an instruction with an operand of two bytes, if the operand
fits. -/
theorem appends_wide (n : Nat) (fault : CompileFault) (span : Span) {f : UInt16 → Instruction}
    (hf : ∀ k, Plain (f k)) : Appends (do Compile.emit (f (← Compile.wide n fault span))) := by
  unfold Compile.wide
  split
  · exact appends_emit (hf _)
  · exact fun c => .inr ⟨⟨fault, span⟩, rfl⟩

/-- Appending an instruction with an operand of one byte, if the operand
fits. -/
theorem appends_narrow (n : Nat) (fault : CompileFault) (span : Span) {f : UInt8 → Instruction}
    (hf : ∀ k, Plain (f k)) : Appends (do Compile.emit (f (← Compile.narrow n fault span))) := by
  unfold Compile.narrow
  split
  · exact appends_emit (hf _)
  · exact fun c => .inr ⟨⟨fault, span⟩, rfl⟩

/-- Loading a symbol appends one instruction, or fails with nothing written. -/
theorem appends_load (symbol : Symbol) (span : Span) : Appends (Compile.load symbol span) := by
  unfold Compile.load
  split
  · exact appends_wide _ _ _ fun _ => ⟨nofun, rfl⟩
  · exact appends_narrow _ _ _ fun _ => ⟨nofun, rfl⟩
  · exact appends_narrow _ _ _ fun _ => ⟨nofun, rfl⟩
  · exact appends_narrow _ _ _ fun _ => ⟨nofun, rfl⟩
  · exact appends_emit ⟨nofun, rfl⟩

/-- So does storing into a variable. -/
theorem appends_store (symbol : Symbol) (span : Span) : Appends (Compile.store symbol span) := by
  unfold Compile.store
  split
  · exact appends_wide _ _ _ fun _ => ⟨nofun, rfl⟩
  · exact appends_narrow _ _ _ fun _ => ⟨nofun, rfl⟩

/-- The code of the innermost function changes. -/
theorem sound_step (hw : w.Sound) {deed : Deed} (hm : Moment.Sound ⟨deed, w.now⟩) {f : Fragment}
    {j : Jumps}
    (hdoes : deed.Does w.now.functions ((f, j) :: w.now.compiler.outer.zip w.now.around))
    (hf : f.Tracked j) :
    Watch.Sound ⟨{ w.now with compiler := { w.now.compiler with fragment := f }, jumps := j },
      w.past ++ [⟨deed, w.now⟩]⟩ :=
  hw.step hm hdoes ⟨hf, hw.now.around, hw.now.scopes⟩

/-- A moment at which an instruction is appended. The code ends in something
else than a discarded value afterwards, so it leaves a value. -/
theorem keeps_append {x : Compile Unit} (hx : Appends x) (hw : w.Sound) (h : s.Settled w.now) :
    Keeps (noting .append x) w fun _ s' => s.LeavesValue s' := by
  have hm := hw.now.sound .append rfl
  rcases hx w.now.compiler with ⟨i, hi, hok⟩ | ⟨e, herror⟩
  · have hf := hw.now.inner.emit i fun hpop => (hi.op hpop).elim
    exact .of_ok (act_of_ok (w := w.noted .append) hok) (sound_step hw hm (.append hi.target) hf)
      ⟨⟨h.waiting, h.around⟩, beq_false_of_ne hi.op⟩
  · exact .of_error (act_of_error (w := w.noted .append) herror) (hw.step hm .nothing hw.now)

/-- The same for a single instruction, which cannot fail. -/
theorem keeps_emit {i : Instruction} (hi : Plain i) (hw : w.Sound) (h : s.Settled w.now) :
    Keeps (emit i) w fun _ s' => s.LeavesValue s' := keeps_append (appends_emit hi) hw h

/-- An operand is found for an instruction, which is then appended. -/
theorem keeps_operand {x : Compile α} (hx : Compile.Leaves written x) {f : α → Instruction}
    (hf : ∀ a, Plain (f a)) (hw : w.Sound) (h : s.Settled w.now) :
    Keeps (do emit (f (← act x))) w fun _ s' => s.LeavesValue s' :=
  (keeps_act hx hw h).bind fun a _ hw₁ h₁ => keeps_emit (hf a) hw₁ h₁

/-- The value of an expression is discarded. -/
theorem keeps_emit_pop (hw : w.Sound) (h : s.LeavesValue w.now) :
    Keeps (emit .pop) w fun _ s' => s.Settled s' ∧ s'.compiler.fragment.lastIs .pop = true :=
  .of_ok rfl (sound_step hw (hw.now.sound .append rfl) (.append rfl)
    (hw.now.inner.emit .pop fun _ => h.value))
    ⟨⟨h.waiting, h.around⟩, rfl⟩

/-- What a closure captures is loaded one after the other, and may be nothing at
all. So all that can be said is that no more jumps wait than before. -/
theorem keeps_loadAll (span : Span) (symbols : List Symbol) (hw : w.Sound) (h : s.Settled w.now) :
    Keeps (loadAll span symbols) w fun _ s' => s.Settled s' := by
  induction symbols generalizing w with
  | nil => exact .of_ok rfl hw h
  | cons symbol rest ih =>
    exact (keeps_append (appends_load symbol span) hw h).bind fun _ _ hw₁ h₁ => ih hw₁ h₁.toSettled

/-! ## Jumps -/

/-- A jump is appended, and its label is the latest one that waits. -/
theorem keeps_jump (conditional : Bool) (hw : w.Sound) :
    Keeps (jump conditional) w fun label s => w.now.HandsOut label s := by
  have hm := hw.now.sound .append rfl
  cases conditional with
  | true =>
    exact .of_ok rfl (sound_step hw hm (.jump true) (hw.now.inner.jump true)) ⟨rfl, rfl, rfl⟩
  | false =>
    exact .of_ok rfl (sound_step hw hm (.jump false) (hw.now.inner.jump false)) ⟨rfl, rfl, rfl⟩

/-- A moment at which a jump is given its target. The jump must be waiting, and
the code must not end in a discarded value, which might still be taken away from
under the target. -/
theorem keeps_bind {label : Label} (span : Span) (hw : w.Sound)
    (hlabel : label ∈ w.now.jumps.waiting) (hpop : w.now.compiler.fragment.lastIs .pop = false) :
    Keeps (bind label span) w fun _ s => w.now.Settles label s := by
  have hm := hw.now.sound .settle rfl
  obtain ⟨d, labels, hdrafted⟩ := hw.now.inner
  by_cases hsize : w.now.compiler.fragment.code.size ≤ Code.maxTarget
  · obtain ⟨code, hcode, hsame, hf⟩ := hdrafted.bind hlabel hpop hsize
    have hbind : w.now.compiler.fragment.bind label =
        .ok { w.now.compiler.fragment with code } := by
      rw [Fragment.bind, hcode]
      rfl
    have hok : Compile.bind label span w.now.compiler =
        .ok () { w.now.compiler with fragment := { w.now.compiler.fragment with code } } := by
      rw [Compile.bind, hbind]
    have hnoting : noting .settle (Compile.bind label span) w = .ok () _ :=
      act_of_ok (w := w.noted .settle) hok
    -- The books are kept after the jump has got its target.
    have hrun : bind label span w = .ok ()
        ⟨{ w.now with
            compiler := { w.now.compiler with fragment := { w.now.compiler.fragment with code } }
            jumps := ⟨w.now.jumps.waiting.erase label, code.size :: w.now.jumps.targets⟩ },
          w.past ++ [⟨.settle, w.now⟩]⟩ := bind_of_ok _ hnoting
    rw [hsame] at hrun
    exact .of_ok hrun (sound_step hw hm (.settle hlabel hbind) hf) ⟨rfl, rfl, hpop⟩
  · have herror : Compile.bind label span w.now.compiler =
        .error ⟨.jumpOutOfRange w.now.compiler.fragment.code.size, span⟩ w.now.compiler := by
      rw [Compile.bind, Fragment.bind, Code.bind, if_pos (Nat.not_le.1 hsize)]
      rfl
    have hnoting : noting .settle (Compile.bind label span) w = .error _ _ :=
      act_of_error (w := w.noted .settle) herror
    have hrun : bind label span w = .error _ _ := bind_of_error _ hnoting
    exact .of_error hrun (hw.step hm .nothing hw.now)

/-! ## Ends of branches and functions -/

/-- **A branch is ended**, if its last expression has its value discarded
last. -/
theorem keeps_finishBranch {body : List Stmt} (hw : w.Sound) (h : s.Settled w.now)
    (hexpr : endsInExpr body = true → w.now.compiler.fragment.lastIs .pop = true) :
    Keeps (finishBranch body) w fun _ s' => s.LeavesValue s' := by
  have hm : Moment.Sound ⟨.endBranch body, w.now⟩ := ⟨hw.now, hexpr⟩
  have hnoted : (w.noted (.endBranch body)).Sound := hw.step hm .nothing hw.now
  have hrun : finishBranch body w =
      (if endsInExpr body && w.now.compiler.fragment.lastIs .pop then
        noting .takeBack (Compile.modifyFragment Fragment.dropLast)
      else emit .pushNull : Watched Unit) (w.noted (.endBranch body)) := rfl
  refine .of_eq hrun ?_
  split
  · next hends =>
    have hpop := (Bool.and_eq_true_iff.1 hends).2
    obtain ⟨d, labels, hdrafted⟩ := hw.now.inner
    obtain ⟨hf, hvalue⟩ := hdrafted.dropLast hpop
    exact .of_ok rfl (sound_step hnoted ⟨hw.now, fun _ => hpop⟩ .takeBack hf)
      ⟨⟨h.waiting, h.around⟩, hvalue⟩
  · exact keeps_emit ⟨nofun, rfl⟩ hnoted h

/-- **The last instruction of a function becomes a return**, if it discards a
value. -/
theorem keeps_returnLast (span : Span) (hw : w.Sound) (h : s.Settled w.now)
    (hpop : w.now.compiler.fragment.lastIs .pop = true) :
    Keeps (noting .exchange (Compile.returnLast span)) w fun _ s' => s.Settled s' := by
  obtain ⟨d, labels, hdrafted⟩ := hw.now.inner
  obtain ⟨g, hg, htracked, -⟩ := hdrafted.replaceLast hpop
  have hok : Compile.returnLast span w.now.compiler =
      .ok () { w.now.compiler with fragment := g } := by
    rw [Compile.returnLast, hg]
  exact .of_ok (act_of_ok (w := w.noted .exchange) hok)
    (sound_step hw ⟨hw.now, fun _ => hpop⟩ (.exchange hg) htracked) ⟨h.waiting, h.around⟩

/-- **A function is ended.** Whatever its body was, what is changed last is
known when it is changed. -/
theorem keeps_finishBody (span : Span) (hw : w.Sound) (h : s.Settled w.now) :
    Keeps (finishBody span) w fun _ s' => s.Settled s' := by
  -- A return is appended to whatever does not end in one.
  have hnull : ∀ w' : Watch, w'.Sound → s.Settled w'.now →
      Keeps (do if !(← act (Compile.lastIs .returnValue)) then emit .returnNull) w'
        fun _ s' => s.Settled s' := by
    intro w' hw' h'
    refine (keeps_act (x := Compile.lastIs .returnValue) (fun _ => rfl) hw' h').bind ?_
    intro returned w₁ hw₁ h₁
    cases returned with
    | true => exact .of_ok rfl hw₁ h₁
    | false =>
      exact (keeps_emit (i := .returnNull) ⟨nofun, rfl⟩ hw₁ h₁).mono fun _ _ hs => hs.toSettled
  have hlast : act (Compile.lastIs .pop) w = .ok (w.now.compiler.fragment.lastIs .pop) w := rfl
  refine .of_eq (bind_of_ok _ hlast) ?_
  cases hpop : w.now.compiler.fragment.lastIs .pop with
  | true => exact (keeps_returnLast span hw h hpop).bind fun _ w₁ hw₁ h₁ => hnull w₁ hw₁ h₁
  | false => exact hnull w hw h

/-- **A function is closed**, and the one around it goes on. -/
theorem keeps_leaveFunction (span : Span) (hw : w.Sound) {j : Jumps} {around : List Jumps}
    (hopen : w.now.around = j :: around) :
    Keeps (leaveFunction span) w fun _ s => s.jumps = j ∧ s.around = around := by
  have haround := hw.now.around
  rw [hopen] at haround
  obtain ⟨f, fs, hf, hfs, houter⟩ := List.forall₂_cons_right_iff.1 haround
  have hscopes := hw.now.scopes
  rw [houter, List.length_cons] at hscopes
  obtain ⟨scope, scopes, hsymbols⟩ := List.exists_cons_of_length_pos (Nat.zero_lt_of_lt hscopes)
  have hleave : w.now.compiler.symbols.leave? = some ⟨scope, scopes⟩ := by
    rw [SymbolTable.leave?, hsymbols]
  rw [hsymbols, List.length_cons] at hscopes
  have hrun := leaveFunction_of_ok (Compile.leaveFunction_eq_ok span hleave houter)
  rw [hopen] at hrun
  have hdoes : Deed.Does .closeFunction w.now.functions
      ((f, j) :: fs.zip around) := by
    rw [Sight.functions, houter, hopen]
    exact .closeFunction
  exact .of_ok hrun (hw.step (hw.now.sound .closeFunction rfl) hdoes
    ⟨hf, hfs, Nat.le_of_succ_le_succ hscopes⟩) ⟨rfl, rfl⟩

/-- **A function is opened**, which has no code and no jumps yet. -/
theorem keeps_openFunction (name : Option String) (params : List Ident) (hw : w.Sound) :
    Keeps (openFunction name params) w fun _ s => s.around = w.now.jumps :: w.now.around := by
  have hscopes : (Compile.opened w.now.compiler name params).outer.length ≤
      (Compile.opened w.now.compiler name params).symbols.outer.length := by
    rw [Compile.opened, SymbolTable.outer_enterFunction]
    exact Nat.succ_le_succ hw.now.scopes
  have hopened := hw.step (hw.now.sound .openFunction rfl)
    (s := ⟨Compile.opened w.now.compiler name params, .none, w.now.jumps :: w.now.around⟩)
    .openFunction ⟨Fragment.tracked_empty, .cons hw.now.inner hw.now.around, hscopes⟩
  have hnoting : noting .openFunction (Compile.openFunction name params) w = .ok () _ :=
    act_of_ok (w := w.noted .openFunction) (Compile.openFunction_eq_ok name params w.now.compiler)
  exact .of_ok (bind_of_ok _ hnoting) hopened rfl

/-- **A function is closed and built.** -/
theorem keeps_buildClosure (params : Nat) (span : Span) (hw : w.Sound)
    (h : w.now.around = s.jumps :: s.around) :
    Keeps (buildClosure params span) w fun _ s' => s.LeavesValue s' := by
  refine (keeps_leaveFunction span hw h).bind ?_
  rintro ⟨code, captures, locals⟩ w₁ hw₁ ⟨hjumps, haround⟩
  have h₁ : s.Settled w₁.now := ⟨congrArg Jumps.waiting hjumps, haround⟩
  refine (keeps_act (Compile.leaves_narrow _ _ _ _) hw₁ h₁).bind fun captured w₂ hw₂ h₂ => ?_
  refine (keeps_loadAll span _ hw₂ h₂).bind fun _ w₃ hw₃ h₃ => ?_
  exact keeps_operand (leaves_addRoutine _ _ _ _) (fun _ => ⟨nofun, rfl⟩) hw₃ h₃

/-! ## Programs -/

/-- The instruction of an operator is none that the record treats in a special
way. -/
theorem plain_unaryInstruction (op : UnaryOp) : Plain (Compile.unaryInstruction op) := by
  cases op <;> exact ⟨nofun, rfl⟩

/-- The same for operators between operands. -/
theorem plain_binaryInstruction (op : BinaryOp) : Plain (Compile.binaryInstruction op) := by
  cases op <;> exact ⟨nofun, rfl⟩

/-- Of two jumps that wait, the second one is settled first. -/
theorem erase_cons_cons_self {α : Type} [DecidableEq α] (a b : α) (l : List α) :
    (a :: b :: l).erase b = a :: l := by
  rw [List.erase_cons]
  split
  · next h => rw [eq_of_beq h]
  · rw [List.erase_cons_head]

mutual

/-- **An expression leaves a value**, and no jumps that were not waiting before.
The induction is on the syntax, along with the walk of the compiler. -/
theorem keeps_expr (e : Expr) {w : Watch} {s : Sight} (hw : w.Sound) (h : s.Settled w.now) :
    Keeps (Compile.Walk.expr watch e) w fun _ s' => s.LeavesValue s' := by
  match e with
  | .ident name span =>
    rw [Compile.Walk.expr]
    refine (keeps_act (leaves_resolve name span) hw h).bind fun symbol w₁ hw₁ h₁ => ?_
    exact keeps_append (appends_load symbol span) hw₁ h₁
  | .number n span =>
    rw [Compile.Walk.expr]
    split
    · exact keeps_operand (leaves_literal _ _) (fun _ => ⟨nofun, rfl⟩) hw h
    · exact .of_error rfl hw
  | .boolean b span => cases b <;> rw [Compile.Walk.expr] <;> exact keeps_emit ⟨nofun, rfl⟩ hw h
  | .string text span =>
    rw [Compile.Walk.expr]
    exact keeps_operand (leaves_literal _ _) (fun _ => ⟨nofun, rfl⟩) hw h
  | .unary op operand span =>
    rw [Compile.Walk.expr]
    exact (keeps_expr operand hw h).bind fun _ _ hw₁ h₁ =>
      keeps_emit (plain_unaryInstruction op) hw₁ h₁.toSettled
  | .binary op left right span =>
    by_cases hop : op = .less
    · subst hop
      rw [Compile.Walk.expr]
      refine (keeps_expr right hw h).bind fun _ w₁ hw₁ h₁ => ?_
      refine (keeps_expr left hw₁ h₁.toSettled).bind fun _ w₂ hw₂ h₂ => ?_
      exact keeps_emit (plain_binaryInstruction .less) hw₂ h₂.toSettled
    · rw [Compile.Walk.expr]
      · refine (keeps_expr left hw h).bind fun _ w₁ hw₁ h₁ => ?_
        refine (keeps_expr right hw₁ h₁.toSettled).bind fun _ w₂ hw₂ h₂ => ?_
        exact keeps_emit (plain_binaryInstruction op) hw₂ h₂.toSettled
      · exact hop
  | .cond test yes no span =>
    rw [Compile.Walk.expr]
    refine (keeps_expr test hw h).bind fun _ w₁ hw₁ h₁ => ?_
    refine (keeps_jump true hw₁).bind fun toNo w₂ hw₂ h₂ => ?_
    refine (keeps_branch yes hw₂ (.refl _)).bind fun _ w₃ hw₃ h₃ => ?_
    refine (keeps_jump false hw₃).bind fun toEnd w₄ hw₄ h₄ => ?_
    -- Of the two jumps that wait, the one behind the test is given its target
    -- first, and it is not the last that was written.
    have hwaiting₄ : w₄.now.jumps.waiting = toEnd :: toNo :: s.jumps.waiting := by
      rw [h₄.waiting, h₃.waiting, h₂.waiting, h₁.waiting]
    have htoNo : toNo ∈ w₄.now.jumps.waiting := by
      rw [hwaiting₄]
      exact List.mem_cons_of_mem _ List.mem_cons_self
    refine (keeps_bind span hw₄ htoNo h₄.value).bind fun _ w₅ hw₅ h₅ => ?_
    refine (keeps_other no hw₅ (.refl _)).bind fun _ w₆ hw₆ h₆ => ?_
    have hwaiting₆ : w₆.now.jumps.waiting = toEnd :: s.jumps.waiting := by
      rw [h₆.waiting, h₅.waiting, hwaiting₄, erase_cons_cons_self]
    have htoEnd : toEnd ∈ w₆.now.jumps.waiting := by
      rw [hwaiting₆]
      exact List.mem_cons_self
    refine (keeps_bind span hw₆ htoEnd h₆.value).mono fun _ s' hs' => ⟨⟨?_, ?_⟩, hs'.value⟩
    · rw [hs'.waiting, hwaiting₆, List.erase_cons_head]
    · rw [hs'.around, h₆.around, h₅.around, h₄.around, h₃.around, h₂.around, h₁.around]
  | .function name params (.mk body place) span =>
    rw [Compile.Walk.expr]
    split
    · exact .of_error rfl hw
    · refine (keeps_openFunction name params hw).bind fun _ w₁ hw₁ h₁ => ?_
      refine (keeps_statements body hw₁ (.refl _)).bind fun _ w₂ hw₂ h₂ => ?_
      refine (keeps_finishBody span hw₂ h₂.1).bind fun _ w₃ hw₃ h₃ => ?_
      -- The jumps of the function are over with it, and those around it wait as
      -- before.
      refine (keeps_buildClosure params.length span hw₃ (h₃.around.trans h₁)).mono ?_
      exact fun _ s' hs' => ⟨h.trans hs'.toSettled, hs'.value⟩
  | .call callee args span =>
    rw [Compile.Walk.expr]
    refine (keeps_expr callee hw h).bind fun _ w₁ hw₁ h₁ => ?_
    refine (keeps_exprs args hw₁ h₁.toSettled).bind fun _ w₂ hw₂ h₂ => ?_
    exact keeps_operand (Compile.leaves_narrow _ _ _ _) (fun _ => ⟨nofun, rfl⟩) hw₂ h₂
  | .array items span =>
    rw [Compile.Walk.expr]
    refine (keeps_exprs items hw h).bind fun _ w₁ hw₁ h₁ => ?_
    exact keeps_operand (Compile.leaves_wide _ _ _ _) (fun _ => ⟨nofun, rfl⟩) hw₁ h₁
  | .index container key span =>
    rw [Compile.Walk.expr]
    refine (keeps_expr container hw h).bind fun _ w₁ hw₁ h₁ => ?_
    refine (keeps_expr key hw₁ h₁.toSettled).bind fun _ w₂ hw₂ h₂ => ?_
    exact keeps_emit ⟨nofun, rfl⟩ hw₂ h₂.toSettled
  | .map entries span =>
    rw [Compile.Walk.expr]
    refine (keeps_pairs entries hw h).bind fun _ w₁ hw₁ h₁ => ?_
    exact keeps_operand (Compile.leaves_wide _ _ _ _) (fun _ => ⟨nofun, rfl⟩) hw₁ h₁

/-- Expressions may be none, so what they leave is only known as far as the
jumps go. -/
theorem keeps_exprs (es : List Expr) {w : Watch} {s : Sight} (hw : w.Sound) (h : s.Settled w.now) :
    Keeps (Compile.Walk.exprs watch es) w fun _ s' => s.Settled s' := by
  match es with
  | [] => rw [Compile.Walk.exprs]; exact .of_ok rfl hw h
  | e :: rest =>
    rw [Compile.Walk.exprs]
    exact (keeps_expr e hw h).bind fun _ _ hw₁ h₁ => keeps_exprs rest hw₁ h₁.toSettled

/-- The same for keys and values. -/
theorem keeps_pairs (entries : List (Expr × Expr)) {w : Watch} {s : Sight} (hw : w.Sound)
    (h : s.Settled w.now) :
    Keeps (Compile.Walk.pairs watch entries) w fun _ s' => s.Settled s' := by
  match entries with
  | [] => rw [Compile.Walk.pairs]; exact .of_ok rfl hw h
  | (key, value) :: rest =>
    rw [Compile.Walk.pairs]
    refine (keeps_expr key hw h).bind fun _ w₁ hw₁ h₁ => ?_
    refine (keeps_expr value hw₁ h₁.toSettled).bind fun _ w₂ hw₂ h₂ => ?_
    exact keeps_pairs rest hw₂ h₂.toSettled

/-- A branch leaves a value: its last expression, which was about to be
discarded, or null. -/
theorem keeps_branch (block : Block) {w : Watch} {s : Sight} (hw : w.Sound) (h : s.Settled w.now) :
    Keeps (Compile.Walk.branch watch block) w fun _ s' => s.LeavesValue s' := by
  match block with
  | .mk body span =>
    rw [Compile.Walk.branch]
    exact (keeps_statements body hw h).bind fun _ _ hw₁ h₁ => keeps_finishBranch hw₁ h₁.1 h₁.2

/-- So does the branch that may be missing. -/
theorem keeps_other (no : Option Block) {w : Watch} {s : Sight} (hw : w.Sound)
    (h : s.Settled w.now) :
    Keeps (Compile.Walk.other watch no) w fun _ s' => s.LeavesValue s' := by
  match no with
  | none =>
    rw [Compile.Walk.other]
    exact keeps_emit ⟨nofun, rfl⟩ hw h
  | some block =>
    rw [Compile.Walk.other]
    exact keeps_branch block hw h

/-- A statement leaves no value. If it is an expression, the code ends in the
instruction that discards it, which is what the end of a branch looks for. -/
theorem keeps_statement (stmt : Stmt) {w : Watch} {s : Sight} (hw : w.Sound) (h : s.Settled w.now) :
    Keeps (Compile.Walk.statement watch stmt) w fun _ s' =>
      s.Settled s' ∧ (stmt.isExpr = true → s'.compiler.fragment.lastIs .pop = true) := by
  match stmt with
  | .expr e span =>
    rw [Compile.Walk.statement]
    refine (keeps_expr e hw h).bind fun _ w₁ hw₁ h₁ => ?_
    exact (keeps_emit_pop hw₁ h₁).mono fun _ s' hs' => ⟨hs'.1, fun _ => hs'.2⟩
  | .bind name e span =>
    rw [Compile.Walk.statement]
    refine (keeps_expr e hw h).bind fun _ w₁ hw₁ h₁ => ?_
    refine (keeps_act (x := Compile.define name.name) (fun _ => rfl) hw₁ h₁.toSettled).bind
      fun symbol w₂ hw₂ h₂ => ?_
    exact (keeps_append (appends_store symbol name.span) hw₂ h₂).mono fun _ s' hs' =>
      ⟨hs'.toSettled, nofun⟩
  | .ret e span =>
    rw [Compile.Walk.statement]
    refine (keeps_act (x := Compile.atTopLevel) (fun _ => rfl) hw h).bind fun top w₁ hw₁ h₁ => ?_
    cases top with
    | true => exact .of_error rfl hw₁
    | false =>
      refine (keeps_expr e hw₁ h₁).bind fun _ w₂ hw₂ h₂ => ?_
      exact (keeps_emit (i := .returnValue) ⟨nofun, rfl⟩ hw₂ h₂.toSettled).mono
        fun _ s' hs' => ⟨hs'.toSettled, nofun⟩

/-- The same for statements, where the last one decides. -/
theorem keeps_statements (program : List Stmt) {w : Watch} {s : Sight} (hw : w.Sound)
    (h : s.Settled w.now) :
    Keeps (Compile.Walk.statements watch program) w fun _ s' =>
      s.Settled s' ∧ (endsInExpr program = true → s'.compiler.fragment.lastIs .pop = true) := by
  match program with
  | [] => rw [Compile.Walk.statements]; exact .of_ok rfl hw ⟨h, nofun⟩
  | [stmt] =>
    rw [Compile.Walk.statements]
    refine (keeps_statement stmt hw h).bind fun _ w₁ hw₁ h₁ => ?_
    rw [Compile.Walk.statements]
    exact .of_ok rfl hw₁ h₁
  | stmt :: next :: rest =>
    rw [Compile.Walk.statements]
    have hlast : next :: rest = [] → stmt.isExpr = false :=
      fun hnil => absurd hnil (List.cons_ne_nil _ _)
    rw [endsInExpr_cons hlast]
    exact (keeps_statement stmt hw h).bind fun _ _ hw₁ h₁ =>
      keeps_statements (next :: rest) hw₁ h₁.1

end

end Watched

/-! ## Compilations -/

namespace Watch

variable {w : Watch}

/-- **Compiles a program while it is watched**, whether that succeeds or
fails. -/
def compile (w : Watch) (program : List Stmt) : Watch :=
  Compile.remains (Compile.Walk.statements Watched.watch program w)

/-- Watching changes nothing. -/
theorem compiler_compile (w : Watch) (program : List Stmt) :
    (w.compile program).now.compiler = (w.now.compiler.compile program).2 := by
  have hsame := Watched.closed_watches.statements program w
  rw [compile, Compiler.compile, ← hsame]
  cases Compile.Walk.statements Watched.watch program w <;> rfl

/-- A routine that a compilation adds is on record. -/
theorem records_compile (w : Watch) (program : List Stmt) : w.Records (w.compile program) :=
  Watched.closed_reports.statements program w

/-- **The record is sound after a program**, whether the program could be
compiled or not. -/
theorem Sound.compile (hw : w.Sound) (program : List Stmt) : (w.compile program).Sound := by
  have hkeeps := Watched.keeps_statements program hw (.refl _)
  rw [Watched.Keeps] at hkeeps
  rw [Watch.compile]
  split at hkeeps
  · next heq => rw [heq]; exact hkeeps.1
  · next heq => rw [heq]; exact hkeeps

/-- What was on record before several programs is on record after them. -/
theorem records_foldl_compile (w : Watch) (programs : List (List Stmt)) :
    w.Records (programs.foldl compile w) := by
  induction programs generalizing w with
  | nil => exact .refl w
  | cons program rest ih => exact (records_compile w program).trans (ih _)

/-- Watching changes nothing of what is compiled, over several programs as over
one. -/
theorem compiler_foldl_compile (w : Watch) (programs : List (List Stmt)) :
    (programs.foldl compile w).now.compiler =
      programs.foldl (fun c program => (c.compile program).2) w.now.compiler := by
  induction programs generalizing w with
  | nil => rfl
  | cons program rest ih => rw [List.foldl_cons, List.foldl_cons, ih, compiler_compile]

/-- The record is sound after any number of programs, of which each goes on from
where the one before has left the compiler. -/
theorem Sound.foldl_compile (hw : w.Sound) (programs : List (List Stmt)) :
    (programs.foldl Watch.compile w).Sound := by
  induction programs generalizing w with
  | nil => exact hw
  | cons program rest ih => exact ih (hw.compile program)

/-- All moments are sound, the present one included. -/
theorem Sound.moments (hw : w.Sound) {m : Moment} (hm : m ∈ w.moments) : m.Sound := by
  rcases List.mem_append.1 hm with hm | hm
  · exact hw.past m hm
  · cases List.mem_singleton.1 hm
    exact hw.now.sound .rest rfl

end Watch

/-- **The last instruction of every open function is known at every moment**
of compilations one after the other, whether they succeed or fail. The
compilations that are watched are those of the compiler, and the moments are
all there are: they begin without code, each leads to the next, and the
routines that have been added to the pool have the code that functions had
when they were going to be closed.

In each of them, what an open function remembers is what can be read back from
its code. When an instruction is going to be taken back or made a return, it
is one byte that discards a value, and no jump has its operand there or its
target behind it. And where a branch ends in an expression, the last
instruction discards its value. -/
theorem Compiler.last_instruction_is_known (symbols : SymbolTable) (constants : Array Value)
    (programs : List (List Stmt)) :
    let w := programs.foldl Watch.compile (.start symbols constants)
    w.now.compiler =
        programs.foldl (fun c program => (c.compile program).2) (.withState symbols constants) ∧
      (w.moments.map fun m => m.sight.functions).head? = some [(.empty, .none)] ∧
      w.moments.IsChain Moment.Leads ∧
      (∀ r, .routine r ∈ w.now.compiler.constants → .routine r ∈ constants ∨ w.Closed r) ∧
      ∀ m ∈ w.moments,
        (∀ f ∈ m.sight.compiler.fragment :: m.sight.compiler.outer, f.KnowsLast) ∧
        (m.deed = .takeBack ∨ m.deed = .exchange →
          ∃ front, m.sight.compiler.fragment.EndsInPop m.sight.jumps front) ∧
        ∀ body, m.deed = .endBranch body → endsInExpr body = true →
          m.sight.compiler.fragment.lastIs .pop = true := by
  intro w
  have hw : w.Sound := (Watch.Sound.start symbols constants).foldl_compile programs
  have hrecords := Watch.records_foldl_compile (.start symbols constants) programs
  refine ⟨Watch.compiler_foldl_compile _ programs, hw.origin, hw.run, hrecords.routines,
    fun m hm => ?_⟩
  have hsound := hw.moments hm
  refine ⟨hsound.tracked.knowsLast, fun hdeed => ?_, fun body hdeed hends => ?_⟩
  · refine hsound.tracked.inner.endsInPop (hsound.pop ?_)
    rcases hdeed with hdeed | hdeed <;> rw [hdeed] <;> rfl
  · refine hsound.pop ?_
    rw [hdeed]
    exact hends

/-- A target can be as far back as the instruction that goes: the inner
conditional ends right where the value of the branch around it is discarded,
at offset 26 of 27 bytes. The routine of the function is that of its code at
the end. -/
theorem Compiler.last_instruction_is_known_nested :
    let source :=
      "fn(x) { if (x) { if (x > 1) { 2 } else { let y = 1; } } else { x } }; if (true) { 3 }"
    let program := (parse source).toOption.getD []
    let w := [program].foldl Watch.compile (.start .initial #[])
    ((w.moments.filter fun m => m.deed.needsPop).map fun m =>
        (m.sight.compiler.fragment.code.size, m.sight.jumps.targets)) =
      [(18, []), (18, []), (27, [26, 20]), (27, [26, 20]), (32, [29, 26, 20]), (32, [29, 26, 20]),
        (32, [31, 29, 26, 20]), (13, []), (13, [])] ∧
      (∀ r, .routine r ∈ w.now.compiler.constants → w.Closed r) ∧
      ∀ m ∈ w.moments,
        (∀ f ∈ m.sight.compiler.fragment :: m.sight.compiler.outer, f.KnowsLast) ∧
        (m.deed = .takeBack ∨ m.deed = .exchange →
          ∃ front, m.sight.compiler.fragment.EndsInPop m.sight.jumps front) ∧
        ∀ body, m.deed = .endBranch body → endsInExpr body = true →
          m.sight.compiler.fragment.lastIs .pop = true := by
  intro source program w
  obtain ⟨-, -, -, hroutines, hmoments⟩ := last_instruction_is_known .initial #[] [program]
  refine ⟨by decide +kernel, fun r hr => ?_, hmoments⟩
  exact (hroutines r hr).resolve_left (Array.not_mem_empty _)

end StackScript
