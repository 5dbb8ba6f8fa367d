import StackScript.Proofs.Code.Height
import StackScript.Proofs.Compiler.Relocation
import StackScript.Proofs.Machine.Path
import StackScript.Proofs.Value.Renaming

/-!
# Two machines side by side

Two machines that run the same program at different places, with other
identities for their closures, do the same things. What they have in common is a
`Pairing`: how identities are renamed, how far the code of the top level is
apart, and what the machine on the left had written before the two came
together.

`Lock` says that two machines are in step. One round of the machine on the right
is one round of the machine on the left, after which they are in step again
(`Pairing.InStep.step`); they halt together, with the same error. The one
exception is a machine on the right that looks for a constant it does not have:
its pool may be only the first part of the pool on the left.

The value discarded last is the same on both sides only after a value has been
discarded. So `Lock` has a condition under which it is, and the places of the
code where it must be are part of the pairing.
-/

namespace StackScript

open Instruction (encodeAll sizeAll Moved)

/-- **How two runs go side by side.** -/
structure Pairing extends Renaming where
  /-- The pool of constants on the left. -/
  pool : Array Value
  /-- The pool of constants on the right. -/
  pool' : Array Value
  /-- It is the first part of that on the left. -/
  first : pool'.toList <+: pool.toList
  /-- There are no closures in the pool. -/
  constant : ∀ v ∈ pool.toList, v.isConstant = true
  /-- What was written on the left before. -/
  before : String
  /-- The code of the top level on the left. -/
  code : Code
  /-- The code of the top level on the right. -/
  code' : Code
  /-- How much further on the top level is on the left. -/
  shift : Nat
  /-- Where an instruction of the top level begins on the right, or its code
  ends. -/
  Begins : Nat → Prop
  /-- Where a value has just been discarded at the top level. -/
  Discarded : Nat → Prop
  /-- What is executed on the right is executed on the left. -/
  decode : ∀ {ip i}, Begins ip → code'.decodeAt ip = some (.ok i) →
    ∃ j, code.decodeAt (ip + shift) = some (.ok j) ∧ Moved shift i j
  /-- The next instruction begins where one ends. -/
  next : ∀ {ip i}, Begins ip → code'.decodeAt ip = some (.ok i) →
    Begins (ip + i.size) ∧ (Discarded (ip + i.size) → i = .pop)
  /-- A jump leads to where an instruction begins. -/
  target : ∀ {ip i t}, Begins ip → code'.decodeAt ip = some (.ok i) → i.target? = some t →
    Begins t.toNat ∧ ¬Discarded t.toNat

namespace Pairing

variable (p : Pairing) {n n' : Nat} {S S' : Nat → Prop} {V V' : Prop} {m m' : Machine}

/-- Values are the same but for the identities of closures. -/
abbrev Same (n : Nat) : Value → Value → Prop := Renamed p.rename n

/-- Renaming identities is a structural relation. So all that is known of these
holds for the values of two paired machines: operators, look-ups and builtin
functions give the same on both sides. -/
theorem structural (n : Nat) : Structural (p.Same n) := Renamed.structural p.injective n

/-! ## Frames -/

/-- Frames that an instruction cannot tell apart unless it jumps or pushes its
closure. -/
structure Alike (n : Nat) (f f' : Frame) : Prop where
  /-- The variables are in the same place. -/
  base : f.base = f'.base
  /-- There are as many. -/
  locals : f.closure.body.locals = f'.closure.body.locals
  /-- The same was captured. -/
  captured : List.Forall₂ (p.Same n) f.closure.captured f'.closure.captured

/-- Frames that run the same function. -/
structure SameFunction (n : Nat) (f f' : Frame) : Prop where
  /-- The closures are the same but for their identities. -/
  closure : p.Same n f.closure.value f'.closure.value
  /-- They are at the same place. -/
  ip : f.ip = f'.ip
  /-- The variables are in the same place. -/
  base : f.base = f'.base

/-- Frames of the top level, the one on the right at a place where a condition
holds. -/
structure SameTop (n : Nat) (S : Nat → Prop) (f f' : Frame) : Prop where
  /-- The code on the left. -/
  code : f.closure.body.code = p.code
  /-- The code on the right. -/
  code' : f'.closure.body.code = p.code'
  /-- They are the same but for the place of the code. -/
  alike : p.Alike n f f'
  /-- The one on the left is further on. -/
  ip : f.ip = f'.ip + p.shift
  /-- The place is one of those. -/
  place : S f'.ip

/-- **Frames in step**: the top level below, and functions above it. -/
inductive Frames (n : Nat) (S : Nat → Prop) : List Frame → List Frame → Prop where
  | none : Frames n S [] []
  | top {f f' : Frame} : p.SameTop n S f f' → Frames n S [f] [f']
  | function {f f' : Frame} {fs fs' : List Frame} : p.SameFunction n f f' → fs ≠ [] →
      Frames n S fs fs' → Frames n S (f :: fs) (f' :: fs')

variable {p}

/-- Frames of one function are alike: they have the same base and as many
variables, and have captured the same. -/
theorem SameFunction.alike {f f' : Frame} (h : p.SameFunction n f f') : p.Alike n f f' := by
  obtain ⟨⟨i, body, captured⟩, ip, base⟩ := f
  obtain ⟨⟨i', body', captured'⟩, ip', base'⟩ := f'
  obtain ⟨hclosure, -, rfl⟩ := h
  have hcaptured := Renamed.captured hclosure
  cases hclosure
  exact ⟨rfl, rfl, hcaptured⟩

/-- Frames stay alike when more identities are given out. -/
theorem Alike.mono {f f' : Frame} (h : p.Alike n f f') (hn : n ≤ n') : p.Alike n' f f' :=
  ⟨h.base, h.locals, h.captured.imp fun _ _ hv => hv.mono hn⟩

/-- So do all frames of a call, and the place of the top level may be known less
exactly. -/
theorem Frames.mono {fs fs' : List Frame} (h : p.Frames n S fs fs') (hn : n ≤ n')
    (hS : ∀ ip, S ip → S' ip) : p.Frames n' S' fs fs' := by
  induction h with
  | none => exact .none
  | top h => exact .top ⟨h.code, h.code', h.alike.mono hn, h.ip, hS _ h.place⟩
  | function h hne _ ih => exact .function ⟨h.closure.mono hn, h.ip, h.base⟩ hne ih

/-- Calls are as deep on the one side as on the other. -/
theorem Frames.length_eq {fs fs' : List Frame} (h : p.Frames n S fs fs') :
    fs.length = fs'.length := by
  induction h with
  | none | top => rfl
  | function _ _ _ ih => exact congrArg (· + 1) ih

/-- A frame that is alone is the top level's. -/
theorem Frames.sameTop {fs : List Frame} {f' : Frame} (h : p.Frames n S fs [f']) :
    ∃ f, fs = [f] ∧ p.SameTop n S f f' := by
  cases h with
  | top h => exact ⟨_, rfl, h⟩
  | function _ hne h => exact (hne (List.length_eq_zero_iff.1 h.length_eq)).elim

/-! ## Machines -/

variable (p)

/-- What two machines have in common that have halted. -/
structure Shared (m m' : Machine) : Prop where
  /-- The globals are the same but for the identities of closures. -/
  globals : List.Forall₂ (p.Same m.nextIdentity) m.globals.slots.toList m'.globals.slots.toList
  /-- The left has written more. -/
  output : m.output = p.before ++ m'.output
  /-- Identities were given out on the left. -/
  since : p.since ≤ m.nextIdentity

/-- **Two machines in step**, so many identities having been given out on the
left. The value discarded last is the same under a condition. -/
structure Lock (n : Nat) (S : Nat → Prop) (V : Prop) (m m' : Machine) : Prop where
  /-- The pool on the left. -/
  constants : m.constants = p.pool
  /-- The pool on the right. -/
  constants' : m'.constants = p.pool'
  /-- The slots of the stack. -/
  stack : List.Forall₂ (p.Same n) m.stack.toList m'.stack.toList
  /-- The stack pointer. -/
  sp : m.sp = m'.sp
  /-- The frames. -/
  frames : p.Frames n S m.frames m'.frames
  /-- The globals. -/
  globals : List.Forall₂ (p.Same n) m.globals.slots.toList m'.globals.slots.toList
  /-- The value discarded last. -/
  popped : V → p.Same n m.lastPopped m'.lastPopped
  /-- Instructions are not counted on the left. -/
  budget : m.budget = none
  /-- Nor on the right. -/
  budget' : m'.budget = none
  /-- The next identity on the left. -/
  identity : m.nextIdentity = n
  /-- The next identity on the right. -/
  identity' : m'.nextIdentity = p.rename n
  /-- Both sides count on. -/
  since : p.since ≤ n
  /-- The left has written more. -/
  output : m.output = p.before ++ m'.output

variable {p}

/-- Machines that are in step share what machines share that have halted. It is
used where one of them fails, for then the other one does too. -/
theorem Lock.shared (h : p.Lock n S V m m') : p.Shared m m' := by
  refine ⟨?_, h.output, ?_⟩
  · rw [h.identity]
    exact h.globals
  · rw [h.identity]
    exact h.since

/-- Less may be said of the place of the top level, and the value discarded last
may be known in fewer cases. -/
theorem Lock.weaken (h : p.Lock n S V m m') (hS : ∀ ip, S ip → S' ip) (hV : V' → V) :
    p.Lock n S' V' m m' :=
  { h with frames := h.frames.mono (Nat.le_refl n) hS, popped := fun hv => h.popped (hV hv) }

/-- **What two computations come to side by side**: a condition holds, or they
halt in the same way, or the one on the right lacks a constant. -/
inductive Paired (p : Pairing) {α : Type} (Q : α → Machine → α → Machine → Prop) :
    EStateM.Result Halt Machine α → EStateM.Result Halt Machine α → Prop where
  | ok {a a' : α} {m m' : Machine} : Q a m a' m' → Paired p Q (.ok a m) (.ok a' m')
  | halt {e : Halt} {m m' : Machine} : p.Shared m m' → Paired p Q (.error e m) (.error e m')
  | lacking {result : EStateM.Result Halt Machine α} {op : Op} {index : Nat} {m' : Machine} :
      Paired p Q result (.error (.error (.invalidOperand op index)) m')

/-- What two computations come to may be weakened. -/
theorem Paired.mono {α : Type} {P Q : α → Machine → α → Machine → Prop}
    {x x' : EStateM.Result Halt Machine α} (h : p.Paired P x x')
    (hPQ : ∀ a m a' m', P a m a' m' → Q a m a' m') : p.Paired Q x x' := by
  cases h with
  | ok h => exact .ok (hPQ _ _ _ _ h)
  | halt h => exact .halt h
  | lacking => exact .lacking

/-- One pair of computations after another. If the first pair halts, or lacks a
constant, so does the whole. -/
theorem Paired.bind {α β : Type} {P : α → Machine → α → Machine → Prop}
    {Q : β → Machine → β → Machine → Prop} {x x' : Exec α} {f f' : α → Exec β}
    (hx : p.Paired P (x m) (x' m'))
    (hf : ∀ a m₁ a' m₁', P a m₁ a' m₁' → p.Paired Q (f a m₁) (f' a' m₁')) :
    p.Paired Q ((x >>= f) m) ((x' >>= f') m') := by
  show p.Paired Q (EStateM.bind x f m) (EStateM.bind x' f' m')
  unfold EStateM.bind
  generalize x m = result at hx
  generalize x' m' = result' at hx
  cases hx with
  | ok h => exact hf _ _ _ _ h
  | halt h => exact .halt h
  | lacking => exact .lacking

/-! ## The stack -/

/-- Values that are the same one by one stay so when the same place is set on
both sides. -/
theorem forall₂_set {α β : Type} {R : α → β → Prop} {xs : List α} {ys : List β} {x : α} {y : β}
    (h : List.Forall₂ R xs ys) (hxy : R x y) (i : Nat) :
    List.Forall₂ R (xs.set i x) (ys.set i y) := by
  induction h generalizing i with
  | nil => exact .nil
  | cons hhead htail ih =>
    cases i with
    | zero => exact .cons hxy htail
    | succ i => exact .cons hhead (ih i)

/-- The same for the slots of a stack, which are an array. -/
theorem forall₂_setIfInBounds {R : Value → Value → Prop} {xs ys : Array Value} {v w : Value}
    (h : List.Forall₂ R xs.toList ys.toList) (hvw : R v w) (i : Nat) :
    List.Forall₂ R (xs.setIfInBounds i v).toList (ys.setIfInBounds i w).toList := by
  rw [Array.toList_setIfInBounds, Array.toList_setIfInBounds]
  exact forall₂_set h hvw i

/-- The same where several slots are set to null at once. -/
theorem forall₂_clear {R : Value → Value → Prop} {xs ys : Array Value}
    (h : List.Forall₂ R xs.toList ys.toList) (hnull : R .null .null) (start count : Nat) :
    List.Forall₂ R (Exec.clear xs start count).toList (Exec.clear ys start count).toList := by
  induction count generalizing xs ys start with
  | zero => exact h
  | succ count ih => exact ih (forall₂_setIfInBounds h hnull start) (start + 1)

/-- The same for some of the slots. -/
theorem forall₂_extract {R : Value → Value → Prop} {xs ys : Array Value}
    (h : List.Forall₂ R xs.toList ys.toList) (start stop : Nat) :
    List.Forall₂ R (xs.extract start stop).toList (ys.extract start stop).toList := by
  rw [Array.toList_extract, Array.toList_extract, List.extract_eq_take_drop,
    List.extract_eq_take_drop]
  exact List.forall₂_take _ (List.forall₂_drop _ h)

/-- Machines in step have the same values in the same slots. This is all that is
used of the stack when variables are read. -/
theorem Lock.slot (h : p.Lock n S V m m') (i : Nat) : p.Same n (m.slot i) (m'.slot i) := by
  have hrel := Structural.getElem?_rel h.stack i
  rw [Array.getElem?_toList, Array.getElem?_toList] at hrel
  exact Structural.getD_rel hrel .null

/-- Machines in step push the same values and are in step again, or there is no
room on either side. -/
theorem Lock.push (h : p.Lock n S V m m') {v v' : Value} (hv : p.Same n v v') :
    p.Paired (fun _ m _ m' => p.Lock n S V m m') (Exec.push v m) (Exec.push v' m') := by
  rw [Exec.push, Exec.push, h.sp]
  split
  · exact .ok { h with stack := forall₂_setIfInBounds h.stack hv _, sp := rfl }
  · exact .halt h.shared

/-- They pop the same values, or there is nothing to pop on either side. -/
theorem Lock.pop (h : p.Lock n S V m m') :
    p.Paired (fun v m v' m' => p.Same n v v' ∧ p.Lock n S V m m') (Exec.pop m) (Exec.pop m') := by
  rw [Exec.pop, Exec.pop, h.sp]
  split
  · exact .halt h.shared
  · exact .ok ⟨h.slot _, { h with stack := forall₂_setIfInBounds h.stack .null _, sp := rfl }⟩

/-- They pop several values at once, in the same order. -/
theorem Lock.popMany (h : p.Lock n S V m m') (count : Nat) :
    p.Paired (fun vs m vs' m' => List.Forall₂ (p.Same n) vs vs' ∧ p.Lock n S V m m')
      (Exec.popMany count m) (Exec.popMany count m') := by
  rw [Exec.popMany, Exec.popMany, h.sp]
  split
  · exact .halt h.shared
  · exact .ok ⟨forall₂_extract h.stack _ _,
      { h with stack := forall₂_clear h.stack .null _ _, sp := rfl }⟩

/-- They discard the same slots. -/
theorem Lock.discardFrom (h : p.Lock n S V m m') (i : Nat) :
    p.Paired (fun _ m _ m' => p.Lock n S V m m') (Exec.discardFrom i m)
      (Exec.discardFrom i m') := by
  rw [Exec.discardFrom, Exec.discardFrom, h.sp]
  split
  · exact .halt h.shared
  · exact .ok { h with stack := forall₂_clear h.stack .null _ _, sp := rfl }

/-- They fail with the same error, and share what machines share that have
halted. -/
theorem Lock.fail {α : Type} {Q : α → Machine → α → Machine → Prop} (h : p.Lock n S V m m')
    (e : RuntimeError) : p.Paired Q (Exec.fail e m) (Exec.fail e m') := .halt h.shared

/-- The result of an operation that cannot tell the two sides apart. -/
theorem Lock.ofExcept {α : Type} {R : α → α → Prop} {x x' : Except RuntimeError α}
    (h : p.Lock n S V m m') (hx : ResultRel R x x') :
    p.Paired (fun a m a' m' => R a a' ∧ p.Lock n S V m m') (Exec.ofExcept x m)
      (Exec.ofExcept x' m') := by
  cases hx with
  | ok hab => exact .ok ⟨hab, h⟩
  | error => exact .halt h.shared

/-- An operator gives the same for operands that are the same but for
identities. -/
theorem Lock.binary (h : p.Lock n S V m m') (op : BinaryOp) :
    p.Paired (fun _ m _ m' => p.Lock n S V m m') (Exec.binary op m) (Exec.binary op m') := by
  refine h.pop.bind fun right m₁ right' m₁' ⟨hright, h₁⟩ => ?_
  refine h₁.pop.bind fun left m₂ left' m₂' ⟨hleft, h₂⟩ => ?_
  refine (h₂.ofExcept ((p.structural n).binary_rel op hleft hright)).bind ?_
  exact fun v m₃ v' m₃' ⟨hv, h₃⟩ => h₃.push hv

/-- So does an operator with a single operand. -/
theorem Lock.unary (h : p.Lock n S V m m') (op : UnaryOp) :
    p.Paired (fun _ m _ m' => p.Lock n S V m m') (Exec.unary op m) (Exec.unary op m') := by
  refine h.pop.bind fun operand m₁ operand' m₁' ⟨hoperand, h₁⟩ => ?_
  refine (h₁.ofExcept ((p.structural n).unary_rel op hoperand)).bind ?_
  exact fun v m₂ v' m₂' ⟨hv, h₂⟩ => h₂.push hv

/-! ## Calls and returns -/

/-- A closure is entered on both sides, or on neither: the number of its
parameters is the same, and so is the depth of the calls. -/
theorem Lock.enter (h : p.Lock n S V m m') (hne : m.frames ≠ []) {i i' : Nat} {body : Routine}
    {captured captured' : List Value}
    (hc : p.Same n (.closure i body captured) (.closure i' body captured')) (base given : Nat) :
    p.Paired (fun _ m _ m' => p.Lock n S V m m') (Exec.enter ⟨i, body, captured⟩ base given m)
      (Exec.enter ⟨i', body, captured'⟩ base given m') := by
  rw [Exec.enter, Exec.enter, h.frames.length_eq]
  split
  · exact .halt h.shared
  split
  · exact .halt h.shared
  split
  · exact .halt h.shared
  · exact .ok { h with sp := rfl, frames := .function ⟨hc, rfl, rfl⟩ hne h.frames }

/-- A builtin function gives the same result and writes the same text. What the
left had written before stays before it. -/
theorem Lock.callBuiltin (h : p.Lock n S V m m') (b : Builtin) (callee : Nat) :
    p.Paired (fun _ m _ m' => p.Lock n S V m m') (Exec.callBuiltin b callee m)
      (Exec.callBuiltin b callee m') := by
  have hargs := forall₂_extract h.stack (callee + 1) m.sp
  show p.Paired _
    ((do
      let result ← Exec.ofExcept (b.call (m.stack.extract (callee + 1) m.sp).toList)
      modify fun m₁ => { m₁ with
        output := m₁.output ++ b.output (m.stack.extract (callee + 1) m.sp).toList }
      Exec.discardFrom callee
      Exec.push result : Exec Unit) m)
    ((do
      let result ← Exec.ofExcept (b.call (m'.stack.extract (callee + 1) m'.sp).toList)
      modify fun m₁ => { m₁ with
        output := m₁.output ++ b.output (m'.stack.extract (callee + 1) m'.sp).toList }
      Exec.discardFrom callee
      Exec.push result : Exec Unit) m')
  rw [← h.sp]
  refine (h.ofExcept ((p.structural n).call_rel b hargs)).bind ?_
  intro v m₁ v' m₁' ⟨hv, h₁⟩
  rw [(p.structural n).output_eq b hargs]
  have h₂ : p.Lock n S V
      { m₁ with output := m₁.output ++ b.output (m'.stack.extract (callee + 1) m.sp).toList }
      { m₁' with output := m₁'.output ++ b.output (m'.stack.extract (callee + 1) m.sp).toList } :=
    { h₁ with output := by rw [h₁.output, String.append_assoc] }
  exact (h₂.discardFrom callee).bind fun _ m₃ _ m₃' h₃ => h₃.push hv

/-- Whatever is called is of the same kind on both sides, since values keep
their types. -/
theorem Lock.call (h : p.Lock n S V m m') (hne : m.frames ≠ []) (count : Nat) :
    p.Paired (fun _ m _ m' => p.Lock n S V m m') (Exec.call count m) (Exec.call count m') := by
  have hcallee := h.slot (m.sp - (count + 1))
  rw [Exec.call_eq, Exec.call_eq]
  rw [← h.sp]
  split
  · exact h.fail _
  generalize m.slot (m.sp - (count + 1)) = v at hcallee
  generalize m'.slot (m.sp - (count + 1)) = v' at hcallee
  cases hcallee with
  | closure hlt hlen hcaptured => exact h.enter hne (.closure hlt hlen hcaptured) _ _
  | builtin b => exact h.callBuiltin b _
  | number | boolean | string | null | routine | array | map => exact h.fail _

/-- A return goes back to callers that are alike, or ends both runs. -/
theorem Lock.returnWith (h : p.Lock n S V m m') {v v' : Value} (hv : p.Same n v v') :
    p.Paired (fun _ m _ m' => p.Lock n S V m m') (Exec.returnWith v m) (Exec.returnWith v' m') := by
  have hframes := h.frames
  rw [Exec.returnWith_eq, Exec.returnWith_eq]
  have hlast : p.Lock n S V { m with frames := [], lastPopped := v }
      { m' with frames := [], lastPopped := v' } :=
    { h with frames := .none, popped := fun _ => hv }
  generalize m.frames = frames at hframes
  generalize m'.frames = frames' at hframes
  cases hframes with
  | none => exact h.fail _
  | top => exact .ok hlast
  | @function f f' fs fs' hf hne hfs =>
    have hreturn : p.Lock n S V { m with frames := fs } { m' with frames := fs' } :=
      { h with frames := hfs }
    have hpaired := (hreturn.discardFrom (f.base - 1)).bind
      fun _ m₁ _ m₁' (h₁ : p.Lock n S V m₁ m₁') => h₁.push hv
    cases hfs with
    | none => exact (hne rfl).elim
    | top | function =>
      rw [hf.base] at hpaired
      dsimp only
      rw [hf.base]
      exact hpaired

/-! ## Instructions -/

/-- A constant is the same on both sides: there are no closures in the pool, and
so nothing to rename. This is the one place where the right may lack
something. -/
theorem Lock.constant (h : p.Lock n S V m m') (op : Op) (index : Nat) :
    p.Paired (fun v m v' m' => v = v' ∧ p.Same n v v' ∧ p.Lock n S V m m')
      (Exec.constant op index m) (Exec.constant op index m') := by
  rw [Exec.constant_eq, Exec.constant_eq, h.constants, h.constants']
  cases hfind : p.pool'[index]? with
  | none => exact .lacking
  | some v =>
    have hleft := getElem?_of_isPrefixOf p.first hfind
    have hconstant := p.constant v (Array.mem_toList_iff.2 (Array.mem_of_getElem? hleft))
    rw [hleft]
    exact .ok ⟨rfl, .of_isConstant hconstant _ _, h⟩

/-- A variable has the same place on both sides, since the frames have the same
base. -/
theorem Lock.localSlot (h : p.Lock n S V m m') {f f' : Frame} (hf : p.Alike n f f') (op : Op)
    (index : Nat) :
    p.Paired (fun i m i' m' => i = i' ∧ p.Lock n S V m m') (Exec.localSlot f op index m)
      (Exec.localSlot f' op index m') := by
  show p.Paired _
    ((if f.closure.body.locals ≤ index || m.sp ≤ f.base + index then
      Exec.fail (.invalidOperand op index) else pure (f.base + index) : Exec Nat) m)
    ((if f'.closure.body.locals ≤ index || m'.sp ≤ f'.base + index then
      Exec.fail (.invalidOperand op index) else pure (f'.base + index) : Exec Nat) m')
  rw [hf.locals, hf.base, h.sp]
  split
  · exact h.fail _
  · exact .ok ⟨rfl, h⟩

/-- Globals that are the same one by one stay so when one of them is set. There
may be null in between. -/
theorem forall₂_set_globals {R : Value → Value → Prop} {g g' : Globals} {v v' : Value}
    (h : List.Forall₂ R g.slots.toList g'.slots.toList) (hv : R v v') (hnull : R .null .null)
    (index : Nat) : List.Forall₂ R (g.set index v).slots.toList (g'.set index v').slots.toList := by
  have hsize : g.slots.size = g'.slots.size := h.length_eq
  rw [Globals.set, Globals.set, hsize]
  split
  · exact forall₂_setIfInBounds h hv index
  · simp only [Array.toList_push, Array.toList_append, Array.toList_replicate]
    refine List.rel_append (List.rel_append h ?_) (.cons hv .nil)
    exact List.forall₂_iff_get.2 ⟨rfl, fun i _ _ => by simpa using hnull⟩

/-- A closure comes into being on both sides. -/
theorem Lock.pushClosure (h : p.Lock n S V m m') (body : Routine) {captured captured' : List Value}
    (hcaptured : List.Forall₂ (p.Same n) captured captured') :
    p.Paired (fun _ m _ m' => p.Lock (n + 1) S V m m') (Exec.pushClosure body captured m)
      (Exec.pushClosure body captured' m') := by
  have hle := Nat.le_succ n
  have hnext : p.Lock (n + 1) S V { m with nextIdentity := m.nextIdentity + 1 }
      { m' with nextIdentity := m'.nextIdentity + 1 } :=
    { h with
      stack := h.stack.imp fun _ _ hv => hv.mono hle
      frames := h.frames.mono hle fun _ => id
      globals := h.globals.imp fun _ _ hv => hv.mono hle
      popped := fun hV => (h.popped hV).mono hle
      identity := congrArg (· + 1) h.identity
      identity' := by
        rw [p.rename_succ n h.since]
        exact congrArg (· + 1) h.identity'
      since := Nat.le_succ_of_le h.since }
  have hclosure : p.Same (n + 1) (.closure m.nextIdentity body captured)
      (.closure m'.nextIdentity body captured') := by
    rw [h.identity, h.identity']
    exact .new_closure body hcaptured
  exact hnext.push hclosure

/-- **An instruction does the same on both sides**, unless it jumps. -/
theorem Lock.execute (h : p.Lock n S V m m') (hne : m.frames ≠ []) {f f' : Frame}
    (hf : p.Alike n f f') {i : Instruction} (hjump : i.target? = none)
    (hself : i = .currentClosure → p.Same n f.closure.value f'.closure.value) :
    p.Paired (fun _ m _ m' => ∃ n, p.Lock n S (V ∨ i = .pop) m m') (Exec.execute f i m)
      (Exec.execute f' i m') := by
  -- Only `makeClosure` gives out an identity, and only `pop` discards a value.
  have keeps : ∀ {x x' : EStateM.Result Halt Machine Unit},
      p.Paired (fun _ m _ m' => p.Lock n S V m m') x x' → i ≠ .pop →
      p.Paired (fun _ m _ m' => ∃ n, p.Lock n S (V ∨ i = .pop) m m') x x' := by
    intro x x' hx hi
    exact hx.mono fun _ _ _ _ h => ⟨n, h.weaken (fun _ => id) fun hV => hV.resolve_right hi⟩
  cases i with
  | constant index =>
    refine keeps ((h.constant _ _).bind ?_) nofun
    exact fun v m₁ v' m₁' ⟨_, hv, h₁⟩ => h₁.push hv
  | pop =>
    refine h.pop.bind ?_
    exact fun v m₁ v' m₁' ⟨hv, h₁⟩ => .ok ⟨n, { h₁ with popped := fun _ => hv }⟩
  | add | sub | mul | div | equal | notEqual | greaterThan => exact keeps (h.binary _) nofun
  | pushTrue | pushFalse => exact keeps (h.push (.boolean _)) nofun
  | pushNull => exact keeps (h.push .null) nofun
  | negate | bang => exact keeps (h.unary _) nofun
  | jumpNotTruthy | jump => cases hjump
  | getGlobal index =>
    have hrel := Structural.getElem?_rel h.globals index.toNat
    rw [Array.getElem?_toList, Array.getElem?_toList] at hrel
    exact keeps (h.push (Structural.getD_rel hrel .null)) nofun
  | setGlobal index =>
    refine keeps (h.pop.bind ?_) nofun
    exact fun v m₁ v' m₁' ⟨hv, h₁⟩ =>
      .ok { h₁ with globals := forall₂_set_globals h₁.globals hv .null _ }
  | getLocal index =>
    refine keeps ((h.localSlot hf _ _).bind ?_) nofun
    rintro slot m₁ _ m₁' ⟨rfl, h₁⟩
    exact h₁.push (h₁.slot slot)
  | setLocal index =>
    refine keeps ((h.localSlot hf _ _).bind ?_) nofun
    rintro slot m₁ _ m₁' ⟨rfl, h₁⟩
    refine h₁.pop.bind ?_
    exact fun v m₂ v' m₂' ⟨hv, h₂⟩ =>
      .ok { h₂ with stack := forall₂_setIfInBounds h₂.stack hv slot }
  | getBuiltin index =>
    refine keeps ?_ nofun
    rw [Exec.execute, Exec.execute]
    cases Builtin.ofIndex? index.toNat with
    | none => exact h.fail _
    | some b => exact h.push (.builtin b)
  | getFree index =>
    refine keeps ?_ nofun
    have hrel := Structural.getElem?_rel hf.captured index.toNat
    rw [Exec.execute, Exec.execute]
    generalize f.closure.captured[index.toNat]? = v at hrel
    generalize f'.closure.captured[index.toNat]? = v' at hrel
    cases hrel with
    | none => exact h.fail _
    | some hv => exact h.push hv
  | currentClosure => exact keeps (h.push (hself rfl)) nofun
  | makeArray count =>
    refine keeps ((h.popMany _).bind ?_) nofun
    exact fun vs m₁ vs' m₁' ⟨hvs, h₁⟩ => h₁.push ((p.structural n).array hvs)
  | makeMap count =>
    refine keeps ((h.popMany _).bind ?_) nofun
    intro vs m₁ vs' m₁' ⟨hvs, h₁⟩
    refine (h₁.ofExcept ((p.structural n).insertAll_rel hvs .nil)).bind ?_
    exact fun entries m₂ entries' m₂' ⟨hentries, h₂⟩ => h₂.push ((p.structural n).map hentries)
  | index =>
    refine keeps (h.pop.bind ?_) nofun
    intro key m₁ key' m₁' ⟨hkey, h₁⟩
    refine h₁.pop.bind ?_
    intro container m₂ container' m₂' ⟨hcontainer, h₂⟩
    refine (h₂.ofExcept ((p.structural n).lookup_rel hcontainer hkey)).bind ?_
    exact fun v m₃ v' m₃' ⟨hv, h₃⟩ => h₃.push hv
  | call count => exact keeps (h.call hne _) nofun
  | returnValue =>
    refine keeps (h.pop.bind ?_) nofun
    exact fun v m₁ v' m₁' ⟨hv, h₁⟩ => h₁.returnWith hv
  | returnNull => exact keeps (h.returnWith .null) nofun
  | makeClosure index captured =>
    refine (h.constant .makeClosure index.toNat).bind ?_
    rintro v m₁ _ m₁' ⟨rfl, -, h₁⟩
    cases v with
    | routine body =>
      refine (h₁.popMany captured.toNat).bind fun vs m₂ vs' m₂' ⟨hvs, h₂⟩ => ?_
      refine (h₂.pushClosure body hvs).mono fun _ _ _ _ h₃ => ⟨n + 1, ?_⟩
      exact h₃.weaken (fun _ => id) fun hV => hV.resolve_right nofun
    | _ => exact h₁.fail _

/-! ## Jumps -/

section

variable {f f' : Frame} {fs fs' : List Frame} {t t' : UInt16}

/-- A jump at the top level leads to places that are as far apart as before. -/
theorem Lock.jumpTo (h : p.Lock n S V m m') (hm : m.frames = f :: fs) (hm' : m'.frames = f' :: fs')
    (hframes : p.Frames n S ({ f with ip := t.toNat } :: fs) ({ f' with ip := t'.toNat } :: fs')) :
    p.Lock n S V (m.jumpTo t.toNat) (m'.jumpTo t'.toNat) := by
  rw [Machine.jumpTo, Machine.jumpTo, hm, hm']
  exact { h with frames := hframes }

/-- So does a jump that is only taken for some values. Which of them are true
does not depend on identities, so both sides take it or none. -/
theorem Lock.jumpNotTruthy (h : p.Lock n S V m m') (hm : m.frames = f :: fs)
    (hm' : m'.frames = f' :: fs')
    (hframes : p.Frames n S ({ f with ip := t.toNat } :: fs) ({ f' with ip := t'.toNat } :: fs'))
    (g g' : Frame) :
    p.Paired (fun _ m _ m' => p.Lock n S V m m') (Exec.execute g (.jumpNotTruthy t) m)
      (Exec.execute g' (.jumpNotTruthy t') m') := by
  have hslot := h.slot (m'.sp - 1)
  have hpop : p.Lock n S V
      { m with stack := m.stack.setIfInBounds (m'.sp - 1) .null, sp := m'.sp - 1 }
      { m' with stack := m'.stack.setIfInBounds (m'.sp - 1) .null, sp := m'.sp - 1 } :=
    { h with stack := forall₂_setIfInBounds h.stack .null _, sp := rfl }
  by_cases hsp : m'.sp = 0
  · have herror : ∀ m : Machine, m.sp = 0 → Exec.pop m = .error (.error .stackUnderflow) m :=
      fun m hm => if_pos hm
    rw [Exec.execute, Exec.execute, Exec.bind_of_error _ (herror m (h.sp.trans hsp)),
      Exec.bind_of_error _ (herror m' hsp)]
    exact .halt h.shared
  · have hok : ∀ m : Machine, m.sp = m'.sp → Exec.pop m = .ok (m.slot (m'.sp - 1))
        { m with stack := m.stack.setIfInBounds (m'.sp - 1) .null, sp := m'.sp - 1 } := by
      intro m hm
      rw [Exec.pop, hm, if_neg hsp]
    rw [Exec.execute, Exec.execute, Exec.bind_of_ok _ (hok m h.sp), Exec.bind_of_ok _ (hok m' rfl),
      (p.structural n).truthy_eq hslot]
    split
    · exact .ok hpop
    · exact .ok (hpop.jumpTo hm hm' hframes)

end

/-! ## Rounds -/

variable (p)

/-- **Two machines in step between two rounds**: an instruction begins where the
top level is on the right, and the value discarded last is the same where it
must be. -/
def InStep (m m' : Machine) : Prop :=
  ∃ n V, p.Lock n (fun ip => p.Begins ip ∧ (p.Discarded ip → V)) V m m'

variable {p}

/-- A round is what its instruction does. -/
theorem Lock.step {Q : Machine → Machine → Prop} {f f' : Frame} {fs fs' : List Frame}
    {i i' : Instruction} (h : p.Lock n S V m m') (hm : m.frames = f :: fs)
    (hm' : m'.frames = f' :: fs') (hi : f.closure.body.code.decodeAt f.ip = some (.ok i))
    (hi' : f'.closure.body.code.decodeAt f'.ip = some (.ok i'))
    (hexec : ∀ journal journal', p.Paired (fun _ m _ m' => Q m m')
      (Exec.execute f i (m.past f fs i m.budget journal))
      (Exec.execute f' i' (m'.past f' fs' i' m'.budget journal'))) :
    p.Paired (fun b m b' m' => b = true ∧ b' = true ∧ Q m m') (Exec.step m) (Exec.step m') := by
  have hspend : ∀ x : Machine, x.budget = none → Exec.spend x = .ok () x := by
    intro x hx
    rw [Exec.spend, hx]
  rw [Exec.step_of_frames hm, Exec.step_of_frames hm', hi, hi']
  dsimp only
  rw [Exec.bind_of_ok _ (hspend m h.budget), Exec.bind_of_ok _ (hspend m' h.budget')]
  exact (hexec _ _).bind fun _ m₂ _ m₂' hQ => .ok ⟨rfl, rfl, hQ⟩

/-- A round in a function, whose code is the same on both sides. -/
theorem Lock.step_function {f f' : Frame} {fs fs' : List Frame} {i : Instruction}
    (h : p.Lock n (fun ip => p.Begins ip ∧ (p.Discarded ip → V)) V m m') (hm : m.frames = f :: fs)
    (hm' : m'.frames = f' :: fs') (hf : p.SameFunction n f f') (hne : fs ≠ [])
    (hfs : p.Frames n (fun ip => p.Begins ip ∧ (p.Discarded ip → V)) fs fs')
    (hi' : f'.closure.body.code.decodeAt f'.ip = some (.ok i)) :
    m.Poised ∧ p.Paired (fun b m b' m' => b = true ∧ b' = true ∧ p.InStep m m') (Exec.step m)
      (Exec.step m') := by
  have hi : f.closure.body.code.decodeAt f.ip = some (.ok i) := by
    have hbody : f.closure.body = f'.closure.body := by
      obtain ⟨⟨_, _, _⟩, _, _⟩ := f
      obtain ⟨⟨_, _, _⟩, _, _⟩ := f'
      cases hf.closure
      rfl
    rw [hbody, hf.ip, hi']
  refine ⟨⟨f, fs, i, hm, hi⟩, h.step hm hm' hi hi' fun journal journal' => ?_⟩
  have hpast : p.Lock n (fun ip => p.Begins ip ∧ (p.Discarded ip → V)) V
      (m.past f fs i m.budget journal) (m'.past f' fs' i m'.budget journal') :=
    { h with frames := .function ⟨hf.closure, congrArg (· + i.size) hf.ip, hf.base⟩ hne hfs }
  have hjump : ∀ t : UInt16, p.Frames n (fun ip => p.Begins ip ∧ (p.Discarded ip → V))
      ({ f with ip := t.toNat } :: fs) ({ f' with ip := t.toNat } :: fs') :=
    fun t => .function ⟨hf.closure, rfl, hf.base⟩ hne hfs
  cases htarget : i.target? with
  | none =>
    have hpaired := hpast.execute (List.cons_ne_nil _ _) hf.alike htarget fun _ => hf.closure
    refine hpaired.mono fun _ _ _ _ ⟨n, h⟩ => ?_
    exact ⟨n, _, h.weaken (fun ip hip => ⟨hip.1, fun hd => .inl (hip.2 hd)⟩) id⟩
  | some t =>
    cases i <;> cases htarget
    · exact (hpast.jumpNotTruthy rfl rfl (hjump t) f f').mono fun _ _ _ _ h => ⟨n, V, h⟩
    · exact .ok ⟨n, V, hpast.jumpTo rfl rfl (hjump t)⟩

/-- A round at the top level, whose code is further on on the left. -/
theorem Lock.step_top {f f' : Frame} {i' : Instruction}
    (h : p.Lock n (fun ip => p.Begins ip ∧ (p.Discarded ip → V)) V m m') (hm : m.frames = [f])
    (hm' : m'.frames = [f'])
    (hf : p.SameTop n (fun ip => p.Begins ip ∧ (p.Discarded ip → V)) f f')
    (hi' : f'.closure.body.code.decodeAt f'.ip = some (.ok i')) :
    m.Poised ∧ p.Paired (fun b m b' m' => b = true ∧ b' = true ∧ p.InStep m m') (Exec.step m)
      (Exec.step m') := by
  have hbegins := hf.place.1
  have hdecode := hi'
  rw [hf.code'] at hdecode
  obtain ⟨i, hi, hmoved⟩ := p.decode hbegins hdecode
  rw [← hf.code, ← hf.ip] at hi
  obtain ⟨hnext, hdiscarded⟩ := p.next hbegins hdecode
  refine ⟨⟨f, [], i, hm, hi⟩, h.step hm hm' hi hi' fun journal journal' => ?_⟩
  -- Both have gone past the instruction, and the offsets still differ by the
  -- shift.
  have hpast : p.Lock n (fun ip => p.Begins ip ∧ (p.Discarded ip → V ∨ i' = .pop)) V
      (m.past f [] i m.budget journal) (m'.past f' [] i' m'.budget journal') := by
    refine { h with frames := .top ⟨hf.code, hf.code', ⟨hf.alike.base, hf.alike.locals,
      hf.alike.captured⟩, ?_, hnext, fun hd => .inr (hdiscarded hd)⟩ }
    show f.ip + i.size = f'.ip + i'.size + p.shift
    rw [hf.ip, hmoved.size_eq, Nat.add_right_comm]
  -- A jump does not lead behind a discarded value, so nothing is asked about
  -- one there.
  have hjump : ∀ t t' : UInt16, t.toNat = t'.toNat + p.shift → i'.target? = some t' →
      p.Frames n (fun ip => p.Begins ip ∧ (p.Discarded ip → V ∨ i' = .pop))
        [{ f with ip := t.toNat }] [{ f' with ip := t'.toNat }] := by
    intro t t' ht htarget
    obtain ⟨hbegins', hnot⟩ := p.target hbegins hdecode htarget
    exact .top ⟨hf.code, hf.code', ⟨hf.alike.base, hf.alike.locals, hf.alike.captured⟩, ht,
      hbegins', fun hd => (hnot hd).elim⟩
  cases hmoved with
  | jump ht =>
    have hlock := hpast.jumpTo rfl rfl (hjump _ _ ht rfl)
    exact .ok ⟨n, V, hlock.weaken
      (fun ip hip => ⟨hip.1, fun hd => (hip.2 hd).resolve_right nofun⟩) id⟩
  | jumpNotTruthy ht =>
    refine (hpast.jumpNotTruthy rfl rfl (hjump _ _ ht rfl) f f').mono fun _ _ _ _ h => ⟨n, V, ?_⟩
    exact h.weaken (fun ip hip => ⟨hip.1, fun hd => (hip.2 hd).resolve_right nofun⟩) id
  | same hfixed =>
    have htarget : i'.target? = none := by cases i' <;> first | rfl | cases hfixed
    have hself : i' = .currentClosure → p.Same n f.closure.value f'.closure.value := by
      rintro rfl
      cases hfixed
    have hpaired := hpast.execute (List.cons_ne_nil _ _) hf.alike htarget hself
    exact hpaired.mono fun _ _ _ _ ⟨n, h⟩ => ⟨n, _, h⟩

/-- **A round on the right is a round on the left.** -/
theorem InStep.step (h : p.InStep m m') (hpoised : m'.Poised) :
    m.Poised ∧ p.Paired (fun b m b' m' => b = true ∧ b' = true ∧ p.InStep m m') (Exec.step m)
      (Exec.step m') := by
  obtain ⟨n, V, h⟩ := h
  obtain ⟨f', fs', i', hm', hi'⟩ := hpoised
  have hframes := h.frames
  rw [hm'] at hframes
  generalize hm : m.frames = fs at hframes
  cases hframes with
  | top hf => exact h.step_top hm hm' hf hi'
  | function hf hne hfs => exact h.step_function hm hm' hf hne hfs hi'

/-- **A path on the right is a path on the left.** -/
theorem InStep.path (h : p.InStep m m') {k : Nat} {x' : Machine} (hpath : Path k m' x') :
    ∃ x, Path k m x ∧ p.InStep x x' := by
  induction hpath generalizing m with
  | refl => exact ⟨m, .refl m, h⟩
  | step hpoised hstep _ ih =>
    obtain ⟨hpoised', hpaired⟩ := h.step hpoised
    rw [hstep] at hpaired
    generalize hstep' : Exec.step m = result at hpaired
    cases hpaired with
    | ok hnext =>
      obtain ⟨rfl, -, hnext⟩ := hnext
      obtain ⟨x, hpath, hx⟩ := ih hnext
      exact ⟨x, .step hpoised' hstep' hpath, hx⟩

end Pairing

end StackScript
