import StackScript.Machine.Step

/-!
# The stack as a list

A machine keeps its stack in an array of a fixed size, and sees to it that the
slots that are not in use are null. So the stack is a list of values, the lowest
first, and the array follows from it (`padded`). `Machine.withStack` is the
machine with a given list of values on its stack; the equations of this file say
what the operations on the stack do to that list. Later proofs use the equations
only, and never look into the array.
-/

namespace StackScript

/-- **The slots of a stack that holds some values**: the values, and then
null. -/
def padded (xs : List Value) : Array Value :=
  (xs ++ List.replicate (stackSize - xs.length) Value.null).toArray

/-- **The machine with some values on its stack**, the lowest first. -/
def Machine.withStack (m : Machine) (xs : List Value) : Machine :=
  { m with stack := padded xs, sp := xs.length }

/-- The machine has some values on its stack. -/
structure Machine.Holds (m : Machine) (xs : List Value) : Prop where
  /-- They are on its stack. -/
  eq : m.withStack xs = m
  /-- They fit. -/
  room : xs.length ≤ stackSize

theorem Machine.holds_withStack {m : Machine} {xs : List Value} (h : xs.length ≤ stackSize) :
    (m.withStack xs).Holds xs := ⟨rfl, h⟩

/-! ## Slots -/

/-- Slots that are not in use read as null, and so do those that do not
exist. -/
theorem getElem?_padded (xs : List Value) (i : Nat) :
    (padded xs)[i]?.getD .null = xs[i]?.getD .null := by
  rw [padded, List.getElem?_toArray]
  by_cases hi : i < xs.length
  · rw [List.getElem?_append_left hi]
  · rw [List.getElem?_append_right (Nat.not_lt.1 hi), List.getElem?_eq_none (Nat.not_lt.1 hi),
      List.getElem?_replicate]
    split <;> rfl

/-- The values on top of others are what lies between these and the stack
pointer. -/
theorem extract_padded (xs ys : List Value) :
    ((padded (xs ++ ys)).extract xs.length (xs ++ ys).length).toList = ys := by
  rw [padded, Array.toList_extract, List.extract_eq_take_drop, List.append_assoc, List.drop_left,
    List.length_append, Nat.add_sub_cancel_left, List.take_left]

/-- A value is pushed. -/
theorem padded_push {xs : List Value} (v : Value) (h : xs.length < stackSize) :
    (padded xs).setIfInBounds xs.length v = padded (xs ++ [v]) := by
  apply Array.ext'
  have hroom : stackSize - xs.length = stackSize - (xs ++ [v]).length + 1 := by
    rw [List.length_append, List.length_singleton]
    omega
  rw [padded, padded, Array.toList_setIfInBounds, List.set_append_right _ _ (Nat.le_refl _),
    Nat.sub_self, hroom, List.replicate_succ, List.set_cons_zero, List.append_assoc]
  rfl

/-- A slot in use is set. -/
theorem padded_set {xs : List Value} {i : Nat} (v : Value) (h : i < xs.length) :
    (padded xs).setIfInBounds i v = padded (xs.set i v) := by
  apply Array.ext'
  rw [padded, padded, Array.toList_setIfInBounds, List.set_append_left _ _ h, List.length_set]

/-- Slots in the middle of the stack are cleared, and those around them are
kept. The induction is on the number of cleared slots. -/
theorem clear_append (front ys back : List Value) :
    Exec.clear (front ++ (ys ++ back)).toArray front.length ys.length =
      (front ++ (List.replicate ys.length Value.null ++ back)).toArray := by
  induction ys generalizing front with
  | nil => rfl
  | cons y ys ih =>
    have hset : (front ++ (y :: ys ++ back)).toArray.setIfInBounds front.length Value.null =
        ((front ++ [Value.null]) ++ (ys ++ back)).toArray := by
      apply Array.ext'
      rw [Array.toList_setIfInBounds, List.set_append_right _ _ (Nat.le_refl _), Nat.sub_self,
        List.append_assoc]
      rfl
    have hrec := ih (front ++ [Value.null])
    rw [List.length_append, List.length_singleton] at hrec
    rw [List.length_cons, Exec.clear, hset, hrec, List.replicate_succ, List.append_assoc]
    rfl

/-- Values are taken off. -/
theorem padded_clear {xs ys : List Value} (h : (xs ++ ys).length ≤ stackSize) :
    Exec.clear (padded (xs ++ ys)) xs.length ys.length = padded xs := by
  have hroom : stackSize - xs.length = ys.length + (stackSize - (xs ++ ys).length) := by
    rw [List.length_append] at h ⊢
    omega
  rw [padded, padded, List.append_assoc, clear_append, hroom, ← List.replicate_append_replicate]

/-- Slots come into use with the null that is in them. -/
theorem padded_expose {xs : List Value} {n : Nat} (h : xs.length + n ≤ stackSize) :
    padded (xs ++ List.replicate n Value.null) = padded xs := by
  have hroom : stackSize - xs.length =
      n + (stackSize - (xs ++ List.replicate n Value.null).length) := by
    rw [List.length_append, List.length_replicate]
    omega
  rw [padded, padded, hroom, List.append_assoc, ← List.replicate_append_replicate]

/-! ## Operations on the stack -/

namespace Exec

variable {m : Machine} {xs ys : List Value}

theorem slot_withStack (i : Nat) : (m.withStack xs).slot i = xs[i]?.getD .null :=
  getElem?_padded xs i

/-- A push adds a value, if there is room for it. -/
theorem push_of_lt (v : Value) (h : xs.length < stackSize) :
    push v (m.withStack xs) = .ok () (m.withStack (xs ++ [v])) := by
  show (if xs.length < stackSize then _ else _) = _
  rw [if_pos h]
  show EStateM.Result.ok () { m with
    stack := (padded xs).setIfInBounds xs.length v, sp := xs.length + 1 } = _
  rw [padded_push v h, Machine.withStack, List.length_append]
  rfl

/-- A push to a full stack is a run-time error, and changes nothing. -/
theorem push_of_le (v : Value) (h : stackSize ≤ xs.length) :
    push v (m.withStack xs) = .error (.error .stackOverflow) (m.withStack xs) := by
  show (if xs.length < stackSize then _ else _) = _
  rw [if_neg (Nat.not_lt.2 h)]

/-- A pop gives the last value back. -/
theorem pop_append (v : Value) (h : (xs ++ [v]).length ≤ stackSize) :
    pop (m.withStack (xs ++ [v])) = .ok v (m.withStack xs) := by
  have hsp : (m.withStack (xs ++ [v])).sp = xs.length + 1 := by
    show (xs ++ [v]).length = _
    rw [List.length_append, List.length_singleton]
  have hslot : (m.withStack (xs ++ [v])).slot xs.length = v := by
    rw [slot_withStack, List.getElem?_append_right (Nat.le_refl _), Nat.sub_self]
    rfl
  have hclear : (padded (xs ++ [v])).setIfInBounds xs.length .null = padded xs := padded_clear h
  rw [pop, hsp, if_neg (Nat.succ_ne_zero _), Nat.add_sub_cancel]
  show EStateM.Result.ok ((m.withStack (xs ++ [v])).slot xs.length)
    { m with stack := (padded (xs ++ [v])).setIfInBounds xs.length .null, sp := xs.length } = _
  rw [hslot, hclear]
  rfl

/-- Several values are popped in the order in which they were pushed. -/
theorem popMany_append (h : (xs ++ ys).length ≤ stackSize) :
    popMany ys.length (m.withStack (xs ++ ys)) = .ok ys (m.withStack xs) := by
  have hsp : (xs ++ ys).length - ys.length = xs.length := by
    rw [List.length_append, Nat.add_sub_cancel]
  show (if (xs ++ ys).length < ys.length then _ else _) = _
  rw [if_neg (by rw [List.length_append]; omega)]
  show EStateM.Result.ok
    ((padded (xs ++ ys)).extract ((xs ++ ys).length - ys.length) (xs ++ ys).length).toList
    { m with
      stack := clear (padded (xs ++ ys)) ((xs ++ ys).length - ys.length) ys.length
      sp := (xs ++ ys).length - ys.length } = _
  rw [hsp, extract_padded, padded_clear h]
  rfl

/-- What stands from a slot on is discarded. -/
theorem discardFrom_append (h : (xs ++ ys).length ≤ stackSize) :
    discardFrom xs.length (m.withStack (xs ++ ys)) = .ok () (m.withStack xs) := by
  have hsp : (xs ++ ys).length - xs.length = ys.length := by
    rw [List.length_append, Nat.add_sub_cancel_left]
  show (if (xs ++ ys).length < xs.length then _ else _) = _
  rw [if_neg (by rw [List.length_append]; omega)]
  show EStateM.Result.ok ()
    { m with
      stack := clear (padded (xs ++ ys)) xs.length ((xs ++ ys).length - xs.length)
      sp := xs.length } = _
  rw [hsp, padded_clear h]
  rfl

/-- A slot in use is set. -/
theorem setSlot_of_lt {i : Nat} (v : Value) (h : i < xs.length) :
    setSlot i v (m.withStack xs) = .ok () (m.withStack (xs.set i v)) := by
  show EStateM.Result.ok () { m with stack := (padded xs).setIfInBounds i v, sp := xs.length } = _
  rw [padded_set v h, Machine.withStack, List.length_set]

/-- A computation that succeeds is followed by the next one. With
`bind_of_error` this runs a computation step by step. -/
theorem bind_of_ok {α β : Type} {x : Exec α} {m m' : Machine} {a : α} (f : α → Exec β)
    (h : x m = .ok a m') : (x >>= f) m = f a m' := by
  show EStateM.bind x f m = f a m'
  rw [EStateM.bind, h]

/-- A computation that halts is not followed by anything. -/
theorem bind_of_error {α β : Type} {x : Exec α} {m m' : Machine} {e : Halt} (f : α → Exec β)
    (h : x m = .error e m') : (x >>= f) m = .error e m' := by
  show EStateM.bind x f m = _
  rw [EStateM.bind, h]

/-! ## Calls and returns -/

/-- A closure that is called with the right number of arguments finds its other
variables null. -/
theorem enter_of_room {c : Closure} {args : List Value} (harity : args.length = c.body.params)
    (hframes : m.frames.length < maxFrames) (hparams : c.body.params ≤ c.body.locals)
    (hroom : xs.length + c.body.locals ≤ stackSize) :
    enter c xs.length args.length (m.withStack (xs ++ args)) =
      .ok () ({ m with frames := ⟨c, 0, xs.length⟩ :: m.frames }.withStack
        (xs ++ (args ++ List.replicate (c.body.locals - c.body.params) Value.null))) := by
  have hframes' : ¬maxFrames ≤ (m.withStack (xs ++ args)).frames.length := Nat.not_le.2 hframes
  rw [enter, if_neg (fun h => h harity), if_neg hframes', if_neg (Nat.not_lt.2 hroom)]
  have hlen : (xs ++ args).length + (c.body.locals - c.body.params) =
      xs.length + c.body.locals := by
    rw [List.length_append, harity]
    omega
  show EStateM.Result.ok () { m with
    stack := padded (xs ++ args)
    sp := xs.length + c.body.locals
    frames := ⟨c, 0, xs.length⟩ :: m.frames } = _
  rw [← List.append_assoc, Machine.withStack, padded_expose (hlen ▸ hroom), List.length_append,
    List.length_replicate, hlen]

/-- A call with the wrong number of arguments fails, whatever room there is. -/
theorem enter_of_arity {c : Closure} {base given : Nat} (h : given ≠ c.body.params) :
    enter c base given m = .error (.error (.wrongArity c.body.params given)) m := by
  rw [enter, if_pos h]

/-- A call for which there is no room is a stack overflow: there are too many
frames, or too few slots for the variables. -/
theorem enter_of_full {c : Closure} {base given : Nat} (harity : given = c.body.params)
    (h : maxFrames ≤ m.frames.length ∨ stackSize < base + c.body.locals) :
    enter c base given m = .error (.error .stackOverflow) m := by
  rw [enter, if_neg (fun h => h harity)]
  rcases h with h | h
  · rw [if_pos h]
  · rw [if_pos h, ite_self]

/-- What is called decides what a call does. -/
theorem call_eq (count : Nat) (m : Machine) :
    call count m = (if m.sp < count + 1 then fail .stackUnderflow else
      match m.slot (m.sp - (count + 1)) with
      | .closure identity body captured =>
        enter ⟨identity, body, captured⟩ (m.sp - (count + 1) + 1) count
      | .builtin b => callBuiltin b (m.sp - (count + 1))
      | v => fail (.notAFunction v.type) : Exec Unit) m := rfl

/-- What is called stands below its arguments. -/
theorem call_append (f : Value) (args : List Value) :
    call args.length (m.withStack (xs ++ f :: args)) =
      (match f with
        | .closure identity body captured =>
          enter ⟨identity, body, captured⟩ (xs.length + 1) args.length
        | .builtin b => callBuiltin b xs.length
        | v => fail (.notAFunction v.type)) (m.withStack (xs ++ f :: args)) := by
  have hcallee : (xs ++ f :: args).length - (args.length + 1) = xs.length := by
    rw [List.length_append, List.length_cons, Nat.add_sub_cancel]
  have hslot : (m.withStack (xs ++ f :: args)).slot xs.length = f := by
    rw [slot_withStack, List.getElem?_append_right (Nat.le_refl _), Nat.sub_self]
    rfl
  rw [call_eq, show (m.withStack (xs ++ f :: args)).sp = (xs ++ f :: args).length from rfl]
  rw [if_neg (by rw [List.length_append, List.length_cons]; omega), hcallee, hslot]

/-- The arguments of a builtin function are what stands above it. -/
theorem callBuiltin_eq (b : Builtin) (f : Value) (args : List Value) :
    callBuiltin b xs.length (m.withStack (xs ++ f :: args)) = (do
      let result ← ofExcept (b.call args)
      modify fun (m : Machine) => { m with output := m.output ++ b.output args }
      discardFrom xs.length
      push result : Exec Unit) (m.withStack (xs ++ f :: args)) := by
  have hargs := extract_padded (xs ++ [f]) args
  rw [List.append_assoc, List.length_append, List.length_singleton, List.singleton_append] at hargs
  unfold callBuiltin
  have hget : (get : Exec Machine) (m.withStack (xs ++ f :: args)) =
      .ok (m.withStack (xs ++ f :: args)) (m.withStack (xs ++ f :: args)) := rfl
  refine (bind_of_ok _ hget).trans ?_
  rw [show ((m.withStack (xs ++ f :: args)).stack.extract (xs.length + 1)
    (m.withStack (xs ++ f :: args)).sp).toList = args from hargs]

/-- A builtin function and its arguments are replaced by its result. What it
prints is added to the output. -/
theorem callBuiltin_of_ok {b : Builtin} (f : Value) {args : List Value} {result : Value}
    (hroom : (xs ++ f :: args).length ≤ stackSize) (h : b.call args = .ok result) :
    callBuiltin b xs.length (m.withStack (xs ++ f :: args)) =
      .ok () ({ m with output := m.output ++ b.output args }.withStack (xs ++ [result])) := by
  have hlt : xs.length < stackSize := by
    rw [List.length_append, List.length_cons] at hroom
    omega
  rw [callBuiltin_eq, h]
  show (do discardFrom xs.length; push result : Exec Unit)
    ({ m with output := m.output ++ b.output args }.withStack (xs ++ f :: args)) = _
  rw [bind_of_ok _ (discardFrom_append hroom), push_of_lt result hlt]

/-- A builtin function that fails leaves the stack as it was, and prints
nothing. -/
theorem callBuiltin_of_error {b : Builtin} (f : Value) {args : List Value} {cause : RuntimeError}
    (h : b.call args = .error cause) :
    callBuiltin b xs.length (m.withStack (xs ++ f :: args)) =
      .error (.error cause) (m.withStack (xs ++ f :: args)) := by
  rw [callBuiltin_eq, h]
  rfl

/-- The frames decide what a return does. -/
theorem returnWith_eq (v : Value) (m : Machine) :
    returnWith v m = (match m.frames with
      | [] => fail .stackUnderflow
      | [_] => modify fun m => { m with frames := [], lastPopped := v }
      | frame :: callers => do
        modify fun m => { m with frames := callers }
        discardFrom (frame.base - 1)
        push v : Exec Unit) m := rfl

/-- The result of a call takes the place of what was called. -/
theorem returnWith_append {frame caller : Frame} {callers : List Frame} (v x : Value)
    (hframes : m.frames = frame :: caller :: callers) (hbase : frame.base = xs.length + 1)
    (hroom : (xs ++ x :: ys).length ≤ stackSize) :
    returnWith v (m.withStack (xs ++ x :: ys)) =
      .ok () ({ m with frames := caller :: callers }.withStack (xs ++ [v])) := by
  have hlt : xs.length < stackSize := by
    rw [List.length_append, List.length_cons] at hroom
    omega
  rw [returnWith_eq, show (m.withStack (xs ++ x :: ys)).frames = _ from hframes]
  show (do discardFrom (frame.base - 1); push v : Exec Unit)
    ({ m with frames := caller :: callers }.withStack (xs ++ x :: ys)) = _
  rw [hbase, Nat.add_sub_cancel, bind_of_ok _ (discardFrom_append hroom), push_of_lt v hlt]

end Exec

end StackScript
