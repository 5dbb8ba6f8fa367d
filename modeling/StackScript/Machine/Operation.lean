import StackScript.Machine.Error

/-!
# Operations on values

What the operators and the builtin functions make of their operands. These are
functions of values alone: no operation sees the stack it takes its operands
from. The only operation with an effect is the builtin function `puts`, and what
it writes is a function of its arguments too (`Builtin.output`).
-/

namespace StackScript

variable {β : Type}

namespace Value

/-- Arithmetic on two numbers. -/
def numeric (op : BinaryOp) (f : Number → Number → Number) (left right : Value β) :
    Except RuntimeError (Value β) :=
  match left, right with
  | number a, number b => .ok (number (f a b))
  | _, _ => .error (.typeMismatch op left.type right.type)

/-- The sum of two numbers, or two strings joined. -/
def add (left right : Value β) : Except RuntimeError (Value β) :=
  match left, right with
  | number a, number b => .ok (number (a.add b))
  | string a, string b => .ok (string (a ++ b))
  | _, _ => .error (.typeMismatch .add left.type right.type)

/-- **Whether one number is greater than another.** Two values of one type that
are not numbers have no order; two of different types do not match. -/
def greater (left right : Value β) : Except RuntimeError (Value β) :=
  match left, right with
  | number a, number b => .ok (boolean (b.less a))
  | _, _ =>
    if left.type = right.type then .error (.unknownOperator .greater left.type)
    else .error (.typeMismatch .greater left.type right.type)

/-- **What an operator between two operands makes of them.** "Less than" is
"greater than" with its operands exchanged. -/
def binary (op : BinaryOp) (left right : Value β) : Except RuntimeError (Value β) :=
  match op with
  | .add => add left right
  | .sub => numeric .sub Number.sub left right
  | .mul => numeric .mul Number.mul left right
  | .div => numeric .div Number.div left right
  | .less => greater right left
  | .greater => greater left right
  | .equal => .ok (boolean (equal left right))
  | .notEqual => .ok (boolean (!equal left right))

/-- **What an operator before its operand makes of it.** -/
def unary (op : UnaryOp) (operand : Value β) : Except RuntimeError (Value β) :=
  match op, operand with
  | .not, v => .ok (boolean (!v.truthy))
  | .negate, number n => .ok (number n.neg)
  | .negate, v => .error (.unsupportedOperand .negate v.type)

/-- **The element of a container under a key.** What is not there is null; only
whole numbers from zero on can be the place of an item. -/
def lookup (container key : Value β) : Except RuntimeError (Value β) :=
  match container, key with
  | array items, number n =>
    match n.toNat? with
    | some i => .ok (items[i]?.getD null)
    | none => .ok null
  | map entries, key =>
    match key.key? with
    | some k => .ok ((Entries.find? k entries).getD null)
    | none => .error (.unusableAsKey key.type)
  | container, key => .error (.indexNotSupported container.type key.type)

/-- **The map of alternating keys and values**, inserted in order after some
entries. A last key without a value is dropped. -/
def insertAll (entries : Entries (Value β)) :
    List (Value β) → Except RuntimeError (Entries (Value β))
  | key :: value :: rest =>
    match key.key? with
    | some k => insertAll (Entries.insert k value entries) rest
    | none => .error (.unusableAsKey key.type)
  | _ => .ok entries

end Value

namespace Builtin

/-- The items of an array argument. -/
def items (b : Builtin) : Value β → Except RuntimeError (List (Value β))
  | .array xs => .ok xs
  | v => .error (.builtin b (.notAnArray v.type))

/-- The length of a string in characters, or of an array or a map. -/
def lengthOf : Value β → Except RuntimeError (Value β)
  | .string s => .ok (.number (Number.ofNat s.length))
  | .array xs => .ok (.number (Number.ofNat xs.length))
  | .map entries => .ok (.number (Number.ofNat entries.length))
  | v => .error (.builtin .len (.notSupported v.type))

/-- **The value of a call of a builtin function.** What `puts` writes is the output
below, and writing it always succeeds: that the place written to may fail is not
modelled. -/
def call (b : Builtin) (args : List (Value β)) : Except RuntimeError (Value β) :=
  match b, args with
  | .puts, _ => .ok .null
  | .len, [v] => lengthOf v
  | .first, [v] => (b.items v).map fun xs => xs.head?.getD .null
  | .last, [v] => (b.items v).map fun xs => xs.getLast?.getD .null
  | .rest, [v] =>
    (b.items v).map fun
      | [] => .null
      | _ :: xs => .array xs
  | .push, [v, x] => (b.items v).map fun xs => .array (xs ++ [x])
  | .push, _ => .error (.wrongArity 2 args.length)
  | _, _ => .error (.wrongArity 1 args.length)

/-- **What a call of a builtin function writes**: `puts` writes each argument and
a line feed, the others nothing. -/
def output [Callable β] (b : Builtin) (args : List (Value β)) : String :=
  match b with
  | .puts => String.join (args.map fun v => v.text ++ "\n")
  | _ => ""

end Builtin

end StackScript
