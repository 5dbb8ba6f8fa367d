import StackScript.Proofs.Compiler.Emitted
import StackScript.Proofs.Machine.Depth
import StackScript.Proofs.Session.Soundness

/-!
# The depth of the operand stack

All code that a session ever runs was compiled by it: the code of its programs,
and the code of the closures that its globals hold. So all of it is steady, and
the operands of every frame are as many as the height of its code says, in every
state that a run comes by. Main statement: `Session.operand_depth_is_static`.
-/

namespace StackScript

open Instruction (encodeAll sizeAll)

/-! ## Steady code in a session -/

/-- A routine that the compiler has made has a height at each of its
instructions, whichever way it was come by. -/
theorem Routine.Emitted.steady {body : Routine} (h : body.Emitted) : body.Steady := by
  cases h with
  | intro hw => exact ⟨_, rfl, (hw.balanced 0).1⟩

/-- What is known of code that belongs to a function literal includes that the
compiler has made it. -/
theorem Compiled.emitted {pool : Array Value} {body : Routine} {f : Lambda} {names : List String}
    (h : Compiled pool body f names) : body.Emitted := by
  cases h with
  | intro _ hw => exact .intro hw

/-- The functions in a value that stands for one of the evaluator's were
compiled, so that they have what all compiled functions have. -/
theorem Related.bodies {P : Routine → Prop} {pool : Array Value}
    (hP : ∀ body f names, Compiled pool body f names → P body) {v : Value} {w : Value Lambda}
    (h : Related pool v w) : v.Bodies P := by
  induction h with
  | number n => exact .number n
  | boolean b => exact .boolean b
  | string s => exact .string s
  | null => exact .null
  | builtin b => exact .builtin b
  | @array xs ys hlen _ ih =>
    refine .array fun v hv => ?_
    obtain ⟨i, hi, rfl⟩ := List.getElem_of_mem hv
    exact ih i _ _ (List.getElem?_eq_getElem hi) (List.getElem?_eq_getElem (hlen ▸ hi))
  | @map xs ys hkeys _ ih =>
    have hlen : xs.length = ys.length := by rw [← List.length_map, hkeys, List.length_map]
    refine .map fun x hx => ?_
    obtain ⟨i, hi, rfl⟩ := List.getElem_of_mem hx
    exact ih i _ _ (List.getElem?_eq_getElem hi) (List.getElem?_eq_getElem (hlen ▸ hi))
  | closure _ hcompiled _ _ _ _ ih =>
    refine .closure (hP _ _ _ hcompiled) fun v hv => ?_
    obtain ⟨i, hi, rfl⟩ := List.getElem_of_mem hv
    exact ih i _ (List.getElem?_eq_getElem hi)

/-- Some code has been appended that raises the height by so many values,
wherever it stands. -/
def Compiler.Raised (c : Compiler) (worth : Nat) (c' : Compiler) : Prop :=
  ∃ is, c'.fragment.code.toList = c.fragment.code.toList ++ encodeAll is ∧
    ∀ (code : Code) (start : Nat), code.Placed start is →
      code.heightAt (start + sizeAll is) = code.heightAt start + worth

/-- The code of a phrase raises the height by what the phrase is worth, wherever
it stands. -/
theorem Compiler.Laid.raised {c c' : Compiler} {p : Phrase} (h : c.Laid p c') :
    c.Raised p.worth c' := by
  obtain ⟨is, hw, hwrote⟩ := h
  refine ⟨is, hwrote.code, fun code start hplaced => ?_⟩
  rw [hplaced.heightAt]
  exact (hw.balanced _).2

namespace Session

variable {s s' : Session} {program : List Stmt} {bytecode : Bytecode}

/-! ## The names and the constants of a session -/

/-- The compiler that goes on from what programs have left behind. -/
def compiler (s : Session) : Compiler := .withState s.symbols s.constants

/-- A session that begins anew begins with a compiler that comes about. -/
theorem reached_prepared (h : s.compiler.Reached) : s.prepared.compiler.Reached := by
  unfold Session.prepared
  split
  · exact h
  · exact .initial

/-- So does one that has compiled a program, whether that has succeeded or
not. -/
theorem reached_compile (h : s.compiler.Reached) (program : List Stmt) :
    (s.compile program).2.compiler.Reached := by
  cases hcompile : s.compile program with
  | mk result s' =>
    cases result with
    | error e =>
      rw [session_of_compile_error hcompile]
      exact reached_prepared h
    | ok bytecode =>
      unfold Session.compile at hcompile
      dsimp only at hcompile
      split at hcompile
      · cases hcompile
      · next c hc =>
        cases hcompile
        exact ((reached_prepared h).compile hc).restate

/-- **The names and the constants of a session are those of compiled
programs.** -/
theorem Reachable.compiler {config : SessionConfig} (h : Reachable config s) :
    s.compiler.Reached := by
  refine h.invariant (P := fun s => s.compiler.Reached) .initial
    (fun _ program h => reached_compile h program) ?_ fun _ _ => .initial
  intro s journal program h
  obtain ⟨globals, identity, hsession⟩ := session_eval s journal program
  rw [hsession]
  exact reached_compile h program

/-- What all compiled functions have, the functions in the globals have. -/
theorem Sound.bodies_globals {P : Routine → Prop} (h : s.Sound)
    (hP : ∀ body f names, Compiled s.constants body f names → P body) :
    ∀ v ∈ s.globals.slots.toList, v.Bodies P := by
  intro v hv
  obtain ⟨i, hi, rfl⟩ := List.getElem_of_mem hv
  obtain ⟨w, hrelated⟩ := h.globals i
  rw [Globals.get, ← Array.getElem?_toList, List.getElem?_eq_getElem hi] at hrelated
  exact hrelated.bodies hP

/-! ## Runs -/

/-- A machine that was loaded with a compiled program stands where it should. -/
theorem Reachable.stands_load {config : SessionConfig} (h : Reachable config s)
    (hcompile : s.compile program = (.ok bytecode, s')) (budget : Option Nat) (identity : Nat)
    (journal : Journal) :
    (Machine.load bytecode s'.globals budget identity journal).Stands := by
  have hs' : Reachable config s' := by
    have hreachable := h.compile program
    rw [hcompile] at hreachable
    exact hreachable
  obtain ⟨is, hw, rfl, -⟩ := h.sound.compile hcompile
  have hbody : Routine.Steady ⟨identity, (encodeAll is).toArray, 0, 0⟩ :=
    ⟨is, rfl, (hw.balanced 0).1⟩
  have hglobals : ∀ v ∈ s'.globals.slots.toList, v.Bodies Routine.Steady :=
    hs'.sound.bodies_globals fun _ _ _ hbody => hbody.emitted.steady
  refine .of_at ⟨rfl, rfl, ?_, ?_, hglobals⟩ (.top (Frame.stands_enter (.closure hbody ?_) 0))
  · exact hs'.compiler.constants_all ⟨.number, .string, fun body h => .routine h.steady⟩
  · exact fun v hv => List.eq_of_mem_replicate hv ▸ .null
  · exact fun v hv => (List.not_mem_nil hv).elim

/-- **The depth of the operand stack is static.** Wherever the run of a compiled
program comes by, the operands of the newest frame are as many as its code alone
says, whichever way led there; and so are those of each caller, of which what it
has called and the arguments are the topmost. A run that comes to the end of its
code leaves nothing on the stack. Every expression raises the height of the code
by one, and every statement leaves it as it was. -/
theorem operand_depth_is_static {config : SessionConfig} (h : Reachable config s)
    (hcompile : s.compile program = (.ok bytecode, s')) (budget : Option Nat) (identity : Nat)
    (journal : Journal) :
    let start := Machine.load bytecode s'.globals budget identity journal
    (∀ m, Visits start m →
      (∀ frame callers, m.frames = frame :: callers →
        m.sp = frame.base + frame.closure.body.locals +
          frame.closure.body.code.heightAt frame.ip) ∧
      ∀ front callee caller callers, m.frames = front ++ callee :: caller :: callers →
        0 < callee.base ∧
        callee.base = caller.base + caller.closure.body.locals +
          caller.closure.body.code.heightAt caller.ip ∧
        ∃ offset count, caller.closure.body.code.decodeAt offset = some (.ok (.call count)) ∧
          caller.ip = offset + 2 ∧
          callee.base - 1 + (count.toNat + 1) = caller.base + caller.closure.body.locals +
            caller.closure.body.code.heightAt offset) ∧
    (∀ m, start.run = (.ok (), m) → m.frames.length = 1 ∧ m.top? = none) ∧
    (∀ (c : Compiler) (e : Expr) (c' : Compiler), c.Level → Compile.expr e c = .ok () c' →
      c.Raised 1 c') ∧
    ∀ (c : Compiler) (x : Stmt) (c' : Compiler), c.Level → Compile.statement x c = .ok () c' →
      c.Raised 0 c' := by
  intro start
  have hstands := h.stands_load hcompile budget identity journal
  refine ⟨fun m hm => ⟨?_, ?_⟩, ?_, ?_, ?_⟩
  · intro frame callers hframes
    have hstacked := (hstands.visits hm).stacked
    rw [hframes] at hstacked
    exact hstacked.stands.sp_eq
  · intro front callee caller callers hframes
    obtain ⟨hcalled, hcaller⟩ := (hstands.visits hm).stacked.caller hframes
    exact ⟨hcalled.pos, hcaller.sp_eq, hcalled.call⟩
  · intro m hrun
    obtain ⟨outcome, m', -, hrun', -, hwell⟩ := h.sound.run hcompile budget identity journal
    rw [show start.run = _ from hrun'] at hrun
    cases hrun
    obtain ⟨-, hsp, closure, hframes, -⟩ := hwell
    rw [hframes, Machine.top?, if_pos hsp]
    exact ⟨rfl, rfl⟩
  · intro c e c' hlevel hexpr
    exact ((Compile.spec_expr e c hlevel).of_eq_ok hexpr).raised
  · intro c x c' hlevel hstatement
    exact ((Compile.spec_statement x c hlevel).of_eq_ok hstatement).1.raised

/-- A function that calls itself between its operands, and branches of which
some leave no value. After the run one frame is left, with no operands. -/
theorem operand_depth_is_static_recursion :
    let s := ((Session.start {}).evalSource (.empty false)
      "let f = fn(n) { if (n > 0) { n + f(n - 1) } else { let m = n; } };").session
    let program := (parse "[f(0), if (f) { if (false) { 1 } }, f]").toOption.getD []
    let bytecode := (s.compile program).1.toOption.getD default
    let s' := (s.compile program).2
    let start := Machine.load bytecode s'.globals none s'.nextIdentity (.empty false)
    s.compile program = (.ok bytecode, s') ∧ start.run = (.ok (), start.run.2) ∧
      start.run.2.frames.length = 1 ∧ start.run.2.top? = none ∧
      ∀ m, Visits start m → ∀ frame callers, m.frames = frame :: callers →
        m.sp = frame.base + frame.closure.body.locals +
          frame.closure.body.code.heightAt frame.ip := by
  intro s program bytecode s' start
  have hs : Reachable {} s := .evalSource _ _ .start
  have hcompile : s.compile program = (.ok bytecode, s') := eq_ok_of_isOk (by decide +kernel)
  have hrun : start.run = (.ok (), start.run.2) := eq_ok_of_isOk (by decide +kernel)
  obtain ⟨hvisits, hends, -⟩ :=
    operand_depth_is_static hs hcompile none s'.nextIdentity (.empty false)
  exact ⟨hcompile, hrun, (hends _ hrun).1, (hends _ hrun).2, fun m hm => (hvisits m hm).1⟩

end Session

end StackScript
