import StackScript.Proofs.Machine.Path
import StackScript.Proofs.Simulation.Relation

/-!
# States of the machine and states of the evaluator

When the machine stands at the beginning of a phrase's code, the evaluator is
about to evaluate the phrase. `Standing` says how the two states agree then: the
globals, the output and the next identity are those of the evaluator's world,
the machine's newest frame runs the function that the evaluator is in, and its
variables are the evaluator's.

`Sim` says that the machine does what the evaluator does, from one state to the
next: it comes to a state that agrees with the evaluator's, it returns as the
evaluator does, or it halts with the evaluator's error. The machine may also
halt because its stack is full or its budget is spent, of which the evaluator
knows nothing. All this happens within a number of rounds that is known
beforehand.
-/

namespace StackScript

open Instruction (encodeAll sizeAll)

/-- **What stays the same throughout a run.** -/
structure Course where
  /-- The pool of constants. -/
  pool : Array Value
  /-- Whether instructions are counted. -/
  limited : Prop
  /-- A number of bytes that no routine exceeds. -/
  longest : Nat
  /-- No routine of the pool exceeds it. -/
  bounded : ∀ body, Value.routine body ∈ pool.toList → body.code.size ≤ longest

/-- **What stays the same while a frame is the newest**, or while it waits. -/
structure Stage where
  /-- The closure that the frame runs. -/
  closure : Closure
  /-- The frames below. -/
  callers : List Frame
  /-- The stack below its variables. -/
  below : List Value
  /-- The names of the values that the closure has captured. -/
  names : List String
  /-- The calls that can still be nested. -/
  left : Nat
  /-- Frames are limited. -/
  depth : callers.length + 1 + left = maxFrames

/-- **What the machine shares with the evaluator's world.** -/
structure WorldRel (r : Course) (m : Machine) (w : World) : Prop where
  /-- The constants are those of the run. -/
  constants : m.constants = r.pool
  /-- The globals have the same values. -/
  globals : ∀ i, Related r.pool (m.globals.get i) (w.globals i)
  /-- Closures get the same identities. -/
  identity : m.nextIdentity = w.nextIdentity
  /-- The same has been written. -/
  output : m.output = w.output
  /-- Only a run that is counted has a budget. -/
  budget : m.budget = none ∨ r.limited

/-- A setting that the pool and the frame have room for. -/
structure Fits (r : Course) (g : Stage) (c : Setting) : Prop where
  /-- The constants are in the pool. -/
  constants : c.constants.toList <+: r.pool.toList
  /-- The captured values are there. -/
  captures : c.symbols.inner.captures.toList.map (·.name) <+: g.names
  /-- The variables of a function are there. -/
  definitions : c.symbols.outer ≠ [] → c.symbols.inner.definitions ≤ g.closure.body.locals

/-- A setting is fit if a later one is: pools and frames have room for what
comes first. -/
theorem Fits.of_extends {r : Course} {g : Stage} {c c' : Setting} {ns : Names} (h : Fits r g c')
    (hext : c.Extends ns c') : Fits r g c where
  constants := hext.constants.trans h.constants
  captures := (hext.captures.map _).trans h.captures
  definitions houter := by
    refine Nat.le_trans hext.definitions (h.definitions fun hnil => houter ?_)
    have hlen := hext.outer.length_eq
    rw [hnil] at hlen
    exact List.length_eq_zero_iff.1 hlen

/-- **What a frame knows of the function that the evaluator is in.** -/
inductive Knows (r : Course) (g : Stage) (t : SymbolTable) (a : Activation) : Prop where
  | top : t.outer = [] → a.globals = none → a.around = [] → a.self = .null → g.below = [] →
      g.callers = [] → Knows r g t a
  | function : t.outer ≠ [] → a.globals = some (topScope t.inner t.outer).own →
      a.around.map (·.1) = namesAround t.outer →
      Related r.pool g.closure.value a.self →
      (∀ (j : Nat) name, g.names[j]? = some name → ∃ v w, g.closure.captured[j]? = some v ∧
        a.around.lookup name = some w ∧ Related r.pool v w) →
      g.below ≠ [] → g.callers ≠ [] → Knows r g t a

/-- **The machine stands where the evaluator stands**: at an offset of the
newest frame's code, with some values on the stack above the frame's
variables. -/
structure Standing (r : Course) (g : Stage) (t : SymbolTable) (s : EvalState) (ip : Nat)
    (temps : List Value) (m : Machine) : Prop where
  /-- The names can be relied on. -/
  coherent : t.Coherent
  /-- They are the evaluator's. -/
  names : s.here.names = t.inner.names
  /-- The frame runs the evaluator's function. -/
  knows : Knows r g t s.here
  /-- The machine shares the evaluator's world. -/
  world : WorldRel r m s.world
  /-- The frame is the newest. -/
  frames : m.frames = ⟨g.closure, ip, g.below.length⟩ :: g.callers
  /-- Its variables have the evaluator's values. -/
  stack : ∃ locals : List Value, locals.length = g.closure.body.locals ∧
    (∀ (i : Nat) v, locals[i]? = some v → Related r.pool v (s.here.locals i)) ∧
    m.Holds (g.below ++ (locals ++ temps))

/-! ## How runs end -/

/-- All globals of the machine stand for values of the evaluator. -/
def Machine.Sound (m : Machine) (pool : Array Value) : Prop :=
  m.constants = pool ∧ ∀ i, ∃ w, Related pool (m.globals.get i) w

/-- Globals that agree with the world of the evaluator stand for values of
it. -/
theorem WorldRel.sound {r : Course} {m : Machine} {w : World} (h : WorldRel r m w) :
    m.Sound r.pool := ⟨h.constants, fun i => ⟨_, h.globals i⟩⟩

/-- **How a run may halt**: for want of space or of budget, or with the
evaluator's error. -/
inductive Halts (r : Course) (fault : Option (RuntimeError × World)) : Halt → Machine → Prop where
  | overflow {m : Machine} : m.Sound r.pool → Halts r fault (.error .stackOverflow) m
  | spent {m : Machine} : r.limited → m.Sound r.pool → Halts r fault (.error .budgetExhausted) m
  | fault {m : Machine} {e : RuntimeError} {w : World} : e.ofValues = true → fault = some (e, w) →
      WorldRel r m w → Halts r fault (.error e) m

/-- The newest frame has returned a value. -/
def Returned (r : Course) (g : Stage) (w : Value Lambda) (world : World) (m : Machine) : Prop :=
  ∃ v under x, g.below = under ++ [x] ∧ Related r.pool v w ∧ WorldRel r m world ∧
    m.frames = g.callers ∧ m.Holds (under ++ [v])

/-- Where the machine is to come to, given what the evaluator comes to. -/
def Target {α : Type} (r : Course) (g : Stage) (Q : α → EvalState → Machine → Prop) :
    EStateM.Result Signal EvalState α → Machine → Prop
  | .ok a s => Q a s
  | .error (.returned w) s => Returned r g w s.world
  | .error _ _ => fun _ => False

/-- The run-time error that the evaluator comes to. -/
def faultOf {α : Type} : EStateM.Result Signal EvalState α → Option (RuntimeError × World)
  | .error (.error e) s => some (e, s.world)
  | _ => none

/-- **The machine does what the evaluator does**, within so many rounds. -/
def Sim {α : Type} (r : Course) (g : Stage) (result : EStateM.Result Signal EvalState α)
    (m : Machine) (cost : Nat) (Q : α → EvalState → Machine → Prop) : Prop :=
  Leads m cost (Target r g Q result) (Halts r (faultOf result))

/-- For want of space or of budget a run may halt whatever the evaluator
does. -/
theorem Halts.of_none {r : Course} {e : Halt} {m : Machine} (h : Halts r none e m)
    (fault : Option (RuntimeError × World)) : Halts r fault e m := by
  cases h with
  | overflow h => exact .overflow h
  | spent hl h => exact .spent hl h
  | fault _ h => cases h

namespace Sim

variable {α β : Type} {r : Course} {g : Stage} {m : Machine} {cost cost₁ cost₂ : Nat}
  {Q Q' : α → EvalState → Machine → Prop}

/-- More rounds may be allowed, and less may be asked of the outcome. -/
theorem mono {result : EStateM.Result Signal EvalState α} (h : Sim r g result m cost₁ Q)
    (hcost : cost₁ ≤ cost) (hQ : ∀ a s m, Q a s m → Q' a s m) : Sim r g result m cost Q' := by
  refine Leads.mono h hcost (fun m' ht => ?_) fun _ _ => id
  cases result with
  | ok a s => exact hQ a s m' ht
  | error signal s => cases signal <;> exact ht

/-- **One evaluation after another.** -/
theorem bind {x : Eval α} {f : α → Eval β} {s : EvalState} {R : β → EvalState → Machine → Prop}
    (hx : Sim r g (x s) m cost₁ Q)
    (hf : ∀ a s' m', Q a s' m' → Sim r g (f a s') m' cost₂ R) (hcost : cost₁ + cost₂ ≤ cost) :
    Sim r g ((x >>= f) s) m cost R := by
  show Sim r g (EStateM.bind x f s) m cost R
  unfold EStateM.bind
  cases hresult : x s with
  | ok a s' =>
    rw [hresult] at hx
    exact ((Leads.mono hx (Nat.le_refl _) (fun _ => id) fun _ _ h => h.of_none _).bind
      (hf a s')).mono hcost (fun _ => id) fun _ _ => id
  | error signal s' =>
    rw [hresult] at hx
    refine Leads.mono hx (Nat.le_trans (Nat.le_add_right _ _) hcost) (fun m' ht => ?_) ?_
    · cases signal <;> exact ht
    · cases signal <;> exact fun _ _ => id

/-- A machine that runs out of space need not do what the evaluator does. -/
theorem of_halt (result : EStateM.Result Signal EvalState α)
    (h : Leads m cost (fun _ => False) (Halts r none)) : Sim r g result m cost Q :=
  Leads.mono h (Nat.le_refl _) (fun _ => False.elim) fun _ _ h => h.of_none _

end Sim

end StackScript
