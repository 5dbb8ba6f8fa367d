import StackScript.Proofs.Simulation.Phrases
import StackScript.Syntax.Parser

/-!
# Whole programs

A program is run by a machine that has just been loaded: there is one frame,
which runs the top level, and nothing on the stack. When the evaluator has
evaluated the program, the machine has come to the end of the code, with nothing
on the stack again and, if the program ends in an expression, with its value as
the value discarded last.

All this takes fewer rounds than a run is given (`Machine.patience`), so that no
run is left unfinished.
-/

namespace StackScript

open Instruction (encodeAll sizeAll)

/-- **The statements of a program do what the evaluator does.** -/
theorem Writes.simulated_program {r : Course} {g : Stage} {c c' : Setting} {start n depth : Nat}
    {program : List Stmt} {is : List Instruction} {s : EvalState} {temps : List Value} {m : Machine}
    (hw : Writes c start (.stmts program) is c') (hdepth : n ≤ depth) (hleft : g.left = n)
    (hfits : Fits r g c') (hcode : g.closure.body.code.Placed start is)
    (h : Standing r g c.symbols s start temps m) :
    Sim r g (Eval.block (Eval.callAt depth) program s) m (r.rounds n is) fun w s' m' =>
      Standing r g c'.symbols s' (start + sizeAll is) temps m' ∧
        (endsInExpr program = true → Related r.pool m'.lastPopped w) := by
  have hbodies : ∀ k d, n = k + 1 → k ≤ d → BodySim r k d := fun _ _ _ => bodySim r
  induction program generalizing c start is s m with
  | nil =>
    cases hw
    rw [Eval.block]
    exact Leads.here ⟨h, fun hexpr => Bool.noConfusion hexpr⟩
  | cons x rest ih =>
    cases hw with
    | @stmtsCons _ c₁ _ _ _ _ is js hx hrest =>
      by_cases hlast : rest = [] → x.isExpr = false
      · have hfits₁ := hfits.of_extends (hrest.extends (hx.extends h.coherent).coherent)
        have hsim := hx.simulated hdepth hbodies hleft hfits₁ hcode.left h
        rw [Eval.block_cons _ hlast, r.rounds_append, Instruction.add_sizeAll_append,
          endsInExpr_cons hlast]
        exact hsim.bind (fun _ s₁ m₁ h₁ => ih hrest hcode.right h₁) (Nat.le_refl _)
      · obtain ⟨rfl, hexpr⟩ := Classical.not_imp.1 hlast
        cases hrest
        cases hx with
        | stmtExpr hvalue =>
          rw [List.append_nil] at hcode ⊢
          have hsim := hvalue.simulated hdepth hbodies hleft hfits hcode.left h
          rw [Eval.block, r.rounds_append, Instruction.add_sizeAll_append]
          refine Sim.last hsim ?_ (Nat.add_le_add_left (r.one_le_rounds n _) _)
          rintro w s₁ m₁ ⟨v, hv, h₁⟩
          refine Leads.mono (h₁.pop hcode.right) (Nat.le_refl _) ?_ fun _ _ => id
          rintro m₂ ⟨h₂, hpopped⟩
          exact ⟨h₂, fun _ => hpopped ▸ hv⟩
        | stmtBind | stmtRet => exact (hexpr rfl).elim

/-! ## The rounds of a run -/

/-- The rounds that are allowed for a call grow with the depth as a power
does. -/
theorem weight_le (longest n : Nat) : weight longest n ≤ Nat.pow (longest + 1) n := by
  induction n with
  | zero => exact Nat.le_refl 1
  | succ n ih =>
    rw [Nat.pow_eq] at ih ⊢
    have hone : 1 ≤ (longest + 1) ^ n := Nat.one_le_pow _ _ (Nat.succ_pos _)
    calc weight longest (n + 1) = 1 + longest * weight longest n := rfl
      _ ≤ (longest + 1) ^ n + longest * (longest + 1) ^ n :=
        Nat.add_le_add hone (Nat.mul_le_mul_left _ ih)
      _ = (longest + 1) ^ (n + 1) := by rw [Nat.pow_succ, Nat.mul_succ, Nat.add_comm, Nat.mul_comm]

theorem le_foldl_max (xs : List Nat) (n : Nat) :
    n ≤ xs.foldl max n ∧ ∀ x ∈ xs, x ≤ xs.foldl max n := by
  induction xs generalizing n with
  | nil => exact ⟨Nat.le_refl n, nofun⟩
  | cons y xs ih =>
    obtain ⟨hstart, hall⟩ := ih (max n y)
    refine ⟨Nat.le_trans (Nat.le_max_left n y) hstart, fun x hx => ?_⟩
    rcases List.mem_cons.1 hx with rfl | hx
    · exact Nat.le_trans (Nat.le_max_right n x) hstart
    · exact hall x hx

/-- No routine of the pool is longer than the longest. -/
theorem Machine.size_le_longestCode {m : Machine} {body : Routine}
    (h : Value.routine body ∈ m.constants.toList) : body.code.size ≤ m.longestCode := by
  unfold longestCode
  rw [← Array.foldl_toList, Array.toList_map]
  exact (le_foldl_max _ _).2 _ (List.mem_map_of_mem h)

/-- The code of the newest frame is no longer than the longest. -/
theorem Machine.top_size_le_longestCode {m : Machine} {frame : Frame} {callers : List Frame}
    (h : m.frames = frame :: callers) : frame.closure.body.code.size ≤ m.longestCode := by
  unfold longestCode
  rw [← Array.foldl_toList, h]
  exact (le_foldl_max _ _).1

/-! ## A machine that has been loaded -/

/-- The frame of the top level. -/
def Stage.top (closure : Closure) : Stage where
  closure := closure
  callers := []
  below := []
  names := []
  left := maxFrames - 1
  depth := rfl

/-- What stays the same throughout the run of a machine. -/
def Machine.course (m : Machine) : Course where
  pool := m.constants
  limited := m.budget ≠ none
  longest := m.longestCode
  bounded := fun _ => m.size_le_longestCode

/-- The top level, with some names bound. -/
def Activation.top (names : Names) : Activation := ⟨names, fun _ => .null, .null, [], none⟩

/-- **A machine that has been loaded stands where the evaluator begins.** -/
theorem standing_load {t : SymbolTable} (ht : t.Coherent) (houter : t.outer = []) (b : Bytecode)
    {globals : Globals} (budget : Option Nat) (identity : Nat) (journal : Journal)
    {values : Nat → Value Lambda}
    (hglobals : ∀ i, Related b.constants (globals.get i) (values i)) :
    Standing (Machine.load b globals budget identity journal).course
      (.top ⟨identity, ⟨identity, b.code, 0, 0⟩, []⟩) t
      ⟨.top t.inner.names, ⟨values, identity + 1, ""⟩⟩ 0 []
      (Machine.load b globals budget identity journal) where
  coherent := ht
  names := rfl
  knows := .top houter rfl rfl rfl rfl rfl
  world := by
    refine ⟨rfl, hglobals, rfl, rfl, ?_⟩
    cases budget with
    | none => exact .inl rfl
    | some n => exact .inr nofun
  frames := rfl
  stack := by
    refine ⟨[], rfl, nofun, ?_, Nat.zero_le _⟩
    rw [Machine.withStack]
    rfl

/-- **Where the run of a program ends**, if it ends well: at the end of the
code, where the evaluator has come to a value. -/
structure Ends (r : Course) (g : Stage) (t : SymbolTable) (program : List Stmt)
    (result : EStateM.Result Signal EvalState (Value Lambda)) (ip : Nat) (w : Value Lambda)
    (s : EvalState) (m : Machine) : Prop where
  /-- The evaluator has come to a value. -/
  result : result = .ok w s
  /-- The machine has come to the end of the code. -/
  standing : Standing r g t s ip [] m
  /-- The value of a last expression was discarded last. -/
  value : endsInExpr program = true → Related r.pool m.lastPopped w

section

variable {t : SymbolTable} {constants : Array Value} {c' : Setting} {program : List Stmt}
  {is : List Instruction} {globals : Globals} {values : Nat → Value Lambda} {depth : Nat}

/-- **A program that has been loaded leads to its end**, or halts as the
evaluator does. -/
theorem Writes.leads (hw : Writes ⟨t, constants⟩ 0 (.stmts program) is c') (ht : t.Coherent)
    (houter : t.outer = []) (hglobals : ∀ i, Related c'.constants (globals.get i) (values i))
    (hdepth : maxFrames ≤ depth) (budget : Option Nat) (identity : Nat) (journal : Journal) :
    let m := Machine.load ⟨(encodeAll is).toArray, c'.constants⟩ globals budget identity journal
    let g := Stage.top ⟨identity, ⟨identity, (encodeAll is).toArray, 0, 0⟩, []⟩
    let result := Eval.block (Eval.callAt depth) program
      ⟨.top t.inner.names, ⟨values, identity + 1, ""⟩⟩
    Leads m (m.course.rounds (maxFrames - 1) is)
      (fun m' => ∃ w s', Ends m.course g c'.symbols program result (sizeAll is) w s' m')
      (Halts m.course (faultOf result)) := by
  intro m g result
  have hext := hw.extends ht
  have houter' : c'.symbols.outer = [] := by
    have := hext.outer
    rw [show (Setting.mk t constants).symbols.outer = [] from houter] at this
    exact List.forall₂_nil_left_iff.1 this
  have hcaptures : c'.symbols.inner.captures = #[] := by
    have := hext.coherent
    rw [SymbolTable.Coherent, houter'] at this
    exact this.isTop.captures
  have hfits : Fits m.course g c' :=
    ⟨List.prefix_refl _, by rw [hcaptures]; exact List.nil_prefix, fun h => (h houter').elim⟩
  have hsim :=
    hw.simulated_program (g := g) (n := maxFrames - 1) (Nat.le_trans (Nat.sub_le _ _) hdepth)
    rfl hfits (Code.Placed.all is) (standing_load ht houter ⟨(encodeAll is).toArray, c'.constants⟩
      budget identity journal hglobals)
  rw [Nat.zero_add] at hsim
  refine Leads.mono hsim (Nat.le_refl _) (fun m' htarget => ?_) fun _ _ => id
  show ∃ w s', Ends m.course g c'.symbols program result (sizeAll is) w s' m'
  change Target m.course g _ result m' at htarget
  generalize result = result' at htarget ⊢
  cases result' with
  | ok w s' => exact ⟨w, s', rfl, htarget.1, htarget.2⟩
  | error signal s' =>
    cases signal with
    | returned w =>
      obtain ⟨v, under, x, hbelow, -⟩ := htarget
      exact (List.append_ne_nil_of_right_ne_nil under (List.cons_ne_nil x []) hbelow.symm).elim
    | _ => exact htarget.elim

/-- Nothing is left behind at the end of the code. -/
theorem Ends.idle {r : Course} {identity : Nat}
    {result : EStateM.Result Signal EvalState (Value Lambda)} {w : Value Lambda} {s : EvalState}
    {m : Machine} (h : Ends r (.top ⟨identity, ⟨identity, (encodeAll is).toArray, 0, 0⟩, []⟩) t
      program result (sizeAll is) w s m) : m.Idle (encodeAll is).toArray (sizeAll is) := by
  obtain ⟨locals, hlocals, -, hholds⟩ := h.standing.stack
  cases List.length_eq_zero_iff.1 hlocals
  exact ⟨(congrArg Machine.stack hholds.eq).symm, (congrArg Machine.sp hholds.eq).symm, _,
    h.standing.frames, rfl, rfl, rfl⟩

/-- The end of the code is the end of the run. -/
theorem Ends.step {r : Course} {identity : Nat}
    {result : EStateM.Result Signal EvalState (Value Lambda)} {w : Value Lambda} {s : EvalState}
    {m : Machine} (h : Ends r (.top ⟨identity, ⟨identity, (encodeAll is).toArray, 0, 0⟩, []⟩) t
      program result (sizeAll is) w s m) : Exec.step m = .ok false m :=
  h.idle.step (Instruction.decodeAt_sizeAll is)

/-- There are rounds enough. -/
theorem rounds_lt_patience (is : List Instruction) (constants : Array Value) (budget : Option Nat)
    (identity : Nat) (journal : Journal) :
    let m := Machine.load ⟨(encodeAll is).toArray, constants⟩ globals budget identity journal
    m.course.rounds (maxFrames - 1) is < m.patience * Exec.stretch := by
  intro m
  have hsize : sizeAll is ≤ m.longestCode := by
    have := m.top_size_le_longestCode rfl
    rw [← Instruction.length_encodeAll]
    exact this
  have hrounds : m.course.rounds (maxFrames - 1) is ≤ (m.longestCode + 2) ^ (maxFrames + 1) :=
    calc m.course.rounds (maxFrames - 1) is
        ≤ (m.longestCode + 2) * (m.longestCode + 2) ^ (maxFrames - 1) := by
          refine Nat.mul_le_mul (Nat.le_trans hsize (Nat.le_add_right _ _)) ?_
          exact Nat.le_trans (weight_le _ _) (Nat.pow_le_pow_left (Nat.le_succ _) _)
      _ = (m.longestCode + 2) ^ (maxFrames - 1 + 1) := Nat.pow_succ'.symm
      _ ≤ (m.longestCode + 2) ^ (maxFrames + 1) :=
        Nat.pow_le_pow_right (Nat.succ_pos _) (by decide)
  have hpatience : m.course.rounds (maxFrames - 1) is < m.patience := by
    rw [Machine.patience, Nat.pow_eq]
    omega
  exact Nat.lt_of_lt_of_le hpatience (Nat.le_mul_of_pos_right _ (Nat.zero_lt_succ _))

/-- **The run of a program**: it comes to the end of the code, or it halts as
the evaluator does. -/
theorem Writes.run (hw : Writes ⟨t, constants⟩ 0 (.stmts program) is c') (ht : t.Coherent)
    (houter : t.outer = []) (hglobals : ∀ i, Related c'.constants (globals.get i) (values i))
    (hdepth : maxFrames ≤ depth) (budget : Option Nat) (identity : Nat) (journal : Journal) :
    let m := Machine.load ⟨(encodeAll is).toArray, c'.constants⟩ globals budget identity journal
    let g := Stage.top ⟨identity, ⟨identity, (encodeAll is).toArray, 0, 0⟩, []⟩
    let result := Eval.block (Eval.callAt depth) program
      ⟨.top t.inner.names, ⟨values, identity + 1, ""⟩⟩
    (∃ m' w s', Finishes m (.ok ()) m' ∧ m.run = (.ok (), m') ∧
        Ends m.course g c'.symbols program result (sizeAll is) w s' m') ∨
      ∃ e m', Finishes m (.error e) m' ∧ m.run = (.error e, m') ∧
        Halts m.course (faultOf result) e m' := by
  intro m g result
  have hend : ∀ m', (∃ w s', Ends m.course g c'.symbols program result (sizeAll is) w s' m') →
      Exec.step m' = .ok false m' := fun m' ⟨w, s', hends⟩ => hends.step
  rcases (hw.leads ht houter hglobals hdepth budget identity journal).run hend
    (rounds_lt_patience is c'.constants budget identity journal) with
    ⟨m', hfinishes, hrun, w, s', hends⟩ | hhalts
  · exact .inl ⟨m', w, s', hfinishes, hrun, hends⟩
  · exact .inr hhalts

/-- **Wherever the run of a program comes by**, an instruction is about to be
executed, or the top level has come to its end. -/
theorem Writes.visits (hw : Writes ⟨t, constants⟩ 0 (.stmts program) is c') (ht : t.Coherent)
    (houter : t.outer = []) (hglobals : ∀ i, Related c'.constants (globals.get i) (values i))
    (budget : Option Nat) (identity : Nat) (journal : Journal) {x : Machine}
    (hx : Visits (Machine.load ⟨(encodeAll is).toArray, c'.constants⟩ globals budget identity
      journal) x) :
    x.Poised ∨ ∃ frame, x.frames = [frame] := by
  have hleads := hw.leads ht houter hglobals (Nat.le_refl _) budget identity journal
  rcases hleads.visits (fun m' ⟨w, s', hends⟩ => hends.step) hx with hpoised | ⟨w, s', hends⟩
  · exact .inl hpoised
  · exact .inr ⟨_, hends.standing.frames⟩

end

/-! ## Compiler correctness -/

/-- **What the machine and the evaluator have in common in the end.** -/
structure SameWorld (pool : Array Value) (m : Machine) (s : EvalState) : Prop where
  /-- The same has been written. -/
  output : m.output = s.world.output
  /-- Every global has the same value. -/
  globals : ∀ i, Related pool (m.globals.get i) (s.world.globals i)

/-- **The machine has come to what the evaluator has come to**: a value, with
the globals bound under the same names, or a run-time error. -/
inductive Agrees (c : Compiler) : Except Halt Unit → Machine →
    EStateM.Result Signal EvalState (Value Lambda) → Prop where
  | value {m : Machine} {w : Value Lambda} {s : EvalState} : Related c.constants m.lastPopped w →
      SameWorld c.constants m s → s.here.names = c.symbols.inner.names →
      Agrees c (.ok ()) m (.ok w s)
  | error {m : Machine} {e : RuntimeError} {s : EvalState} : SameWorld c.constants m s →
      Agrees c (.error (.error e)) m (.error (.error e) s)

theorem WorldRel.sameWorld {r : Course} {m : Machine} {s : EvalState} (h : WorldRel r m s.world) :
    SameWorld r.pool m s := ⟨h.output, h.globals⟩

/-- An error that the evaluator comes to is what its result is. -/
theorem eq_error_of_faultOf {result : EStateM.Result Signal EvalState (Value Lambda)}
    {e : RuntimeError} {w : World} (h : faultOf result = some (e, w)) :
    ∃ s, result = .error (.error e) s ∧ s.world = w := by
  cases result with
  | ok => cases h
  | error signal s =>
    cases signal with
    | error e =>
      cases h
      exact ⟨s, rfl, rfl⟩
    | _ => cases h

/-- **Compiler correctness.** A program that a new compiler has compiled and
that ends in an expression is run by a machine with no globals and no budget.
Unless the stack overflows, the run comes to what the evaluator comes to: the
same value or the same run-time error, with the same output and the same value
of every global. -/
theorem Compiler.run_agrees_with_evaluator {program : List Stmt} {c : Compiler}
    {identity depth : Nat} {journal : Journal} {outcome : Except Halt Unit} {m : Machine}
    (hcompile : Compiler.initial.compile program = (.ok (), c)) (hlast : endsInExpr program = true)
    (hrun : (Machine.load c.bytecode .empty none identity journal).run = (outcome, m))
    (hoverflow : outcome ≠ .error (.error .stackOverflow)) (hdepth : maxFrames ≤ depth) :
    Agrees c outcome m (Eval.program depth (identity + 1) program) := by
  obtain ⟨is, hw, hbytecode⟩ := Compiler.writes_of_compile hcompile rfl
  rw [hbytecode] at hrun
  have hglobals : ∀ i, Related c.setting.constants (Globals.empty.get i) ((fun _ => .null) i) :=
    fun _ => .null
  obtain ⟨m', w, s, -, hrun', hends⟩ | ⟨e, m', -, hrun', hhalts⟩ :=
    hw.run SymbolTable.coherent_initial rfl hglobals hdepth none identity journal
  · cases hrun.symm.trans hrun'
    rw [show Eval.program depth (identity + 1) program = .ok w s from hends.result]
    exact .value (hends.value hlast) hends.standing.world.sameWorld hends.standing.names
  · cases hrun.symm.trans hrun'
    cases hhalts with
    | overflow => exact (hoverflow rfl).elim
    | spent hlimited => exact (hlimited rfl).elim
    | fault _ hfault hworld =>
      obtain ⟨s, hresult, rfl⟩ := eq_error_of_faultOf hfault
      rw [show Eval.program depth (identity + 1) program = _ from hresult]
      exact .error hworld.sameWorld

/-- A function that calls itself, a conditional with `<`, something printed, and
a function as the result. -/
theorem Compiler.run_agrees_with_evaluator_sum :
    let source := "let sum = fn(n) { if (n < 1) { 0 } else { n + sum(n - 1) } }; puts(sum(3)); sum"
    let program := (parse source).toOption.getD []
    let c := (Compiler.initial.compile program).2
    let m := (Machine.load c.bytecode .empty none 0 (.empty false)).run.2
    endsInExpr program = true ∧ m.output = "6\n" ∧
      Agrees c (.ok ()) m (Eval.program maxFrames 1 program) := by
  intro source program c m
  have hcompile : Compiler.initial.compile program = (.ok (), c) :=
    Prod.ext (by decide +kernel) rfl
  have hrun : (Machine.load c.bytecode .empty none 0 (.empty false)).run = (.ok (), m) :=
    Prod.ext (by decide +kernel) rfl
  have hlast : endsInExpr program = true := by decide +kernel
  exact ⟨hlast, by decide +kernel,
    run_agrees_with_evaluator hcompile hlast hrun nofun (Nat.le_refl _)⟩

end StackScript
