import Mathlib.Algebra.BigOperators.Group.Finset.Basic
import StackScript.Proofs.Symbol.Coherence

/-!
# Well-scoped programs

Which programs can be compiled is said here without tables of names, pools of
constants and code.

A phrase of a program stands at a **place**: there are names that can be seen
from it (`View`), and there is an offset, at which its code begins. What the
names around a phrase are for is decided by `View.storage?`: every name that can
be seen has a kind of place where its value lives. From this follows what a
phrase **demands** (`Demand`): the names that the function around it has to
capture, the bytes of its code, and the constants.

An `Occurrence` is a phrase at its place, and `Occurrence.parts` are the phrases
it consists of, at theirs. A program is **admissible** if everything in it is
allowed where it stands, and if it has no more globals and constants than
operands can name.
-/

namespace StackScript

/-- The bytes of the instruction that reads a name, by where its value lives. -/
def Storage.width : Storage → Nat
  | .global => 3
  | .frame | .builtin | .captured => 2
  | .itself => 1

/-! ## Views -/

/-- **The names that can be seen at a place**, besides the builtin functions. -/
structure View where
  /-- The names that the function around the place has bound so far, or the top
  level. -/
  own : Names
  /-- The names of the functions around that one, the nearest first. -/
  around : List String
  /-- The globals; nothing at the top level, where they are the place's own. -/
  globals : Option (List String)

namespace View

/-- The view at the beginning of a program. -/
def top : View := ⟨.empty, [], none⟩

/-- Whether a place is inside of a function. -/
def inFunction (v : View) : Bool := v.globals.isSome

/-- **Where the value of a name lives**, if the name can be seen: the function's
own names hide those of the functions around it, these hide the globals, and
these the builtin functions. -/
def storage? (v : View) (name : String) : Option Storage :=
  match v.own.bound.lookup name with
  | some .itself => some .itself
  | some (.site _) => some (if v.inFunction then .frame else .global)
  | none =>
    if name ∈ v.around then some .captured
    else if name ∈ v.globals.getD [] then some .global
    else (Builtin.ofName? name).map fun _ => .builtin

/-- The bytes of the instruction that reads a name. -/
def reading (v : View) (name : String) : Nat := ((v.storage? name).map Storage.width).getD 0

/-- **The view at the beginning of a function's body.** -/
def inside (v : View) (name : Option String) (params : List Ident) : View where
  own := .ofFunction name params
  around := if v.inFunction then v.own.bound.map (·.1) ++ v.around else []
  globals := some (v.globals.getD (v.own.bound.map (·.1)))

/-- The view after a phrase. -/
def after (v : View) (p : Phrase) : View := { v with own := p.skip v.own }

/-- The number of variables that a function can have, or the top level. -/
def room (v : View) : Nat := if v.inFunction then 256 else 65536

/-- Of some names, those that the function around a place has to capture. -/
def captured (v : View) (names : Finset String) : Finset String :=
  names.filter fun name => v.storage? name = some .captured

/-- Where nothing is read, nothing has to be captured. -/
@[simp] theorem captured_empty (v : View) : v.captured ∅ = ∅ := rfl

/-- What has to be captured for two phrases is what has to be captured for each
of them. This is how the demands of the parts of a phrase add up. -/
@[simp] theorem captured_union (v : View) (names names' : Finset String) :
    v.captured (names ∪ names') = v.captured names ∪ v.captured names' :=
  Finset.filter_union ..

/-- A name whose value lives in a function around is itself all that has to be
captured for it. With `captured_singleton_of_ne` it decides what reading a name
demands. -/
theorem captured_singleton_of_eq {v : View} {name : String} (h : v.storage? name = some .captured) :
    v.captured {name} = {name} := by
  rw [captured, Finset.filter_singleton, if_pos h]

/-- For a name whose value lives elsewhere nothing has to be captured: it is
there without a closure. -/
theorem captured_singleton_of_ne {v : View} {name : String} (h : v.storage? name ≠ some .captured) :
    v.captured {name} = ∅ := by
  rw [captured, Finset.filter_singleton, if_neg h]

end View

/-! ## Demands -/

/-- **A literal that joins the pool of constants.** -/
inductive Literal where
  /-- A number. -/
  | number (n : Number)
  /-- A string. -/
  | string (s : String)
deriving DecidableEq

/-- **What a phrase demands** of the function around it, of its code and of the
pool. -/
@[ext]
structure Demand where
  /-- The names that the function has to capture. -/
  captures : Finset String
  /-- The bytes of the phrase's code. -/
  width : Nat
  /-- The literals. -/
  literals : Finset Literal
  /-- The number of function literals, each of which is a constant of its
  own. -/
  functions : Nat

namespace Demand

/-- Code that has so many bytes and demands nothing else. -/
def bytes (n : Nat) : Demand := ⟨∅, n, ∅, 0⟩

/-- A literal. -/
def literal (l : Literal) : Demand := ⟨∅, 3, {l}, 0⟩

/-- A name that is read. -/
def name (v : View) (name : String) : Demand := ⟨v.captured {name}, v.reading name, ∅, 0⟩

/-- One phrase after another. -/
instance : Append Demand where
  append d e := ⟨d.captures ∪ e.captures, d.width + e.width, d.literals ∪ e.literals,
    d.functions + e.functions⟩

section

variable (d e : Demand)

/-- One phrase after another demands the captures of both; a name that both of
them read is captured once. -/
@[simp] theorem captures_append : (d ++ e).captures = d.captures ∪ e.captures := rfl

/-- The code of one phrase after another is as long as that of both together. -/
@[simp] theorem width_append : (d ++ e).width = d.width + e.width := rfl

/-- Literals are shared, within a phrase as well as between phrases: the pool
has each of them once. -/
@[simp] theorem literals_append : (d ++ e).literals = d.literals ∪ e.literals := rfl

/-- Function literals are not shared. Each of them is a constant of its own, so
they are counted. -/
@[simp] theorem functions_append : (d ++ e).functions = d.functions + e.functions := rfl

/-- Code that has no bytes demands nothing, so it can be left out. It is what an
empty list of phrases demands. -/
theorem bytes_zero_append : .bytes 0 ++ d = d := by
  ext <;> simp [bytes]

/-- It makes no difference how phrases are grouped. The layout of a phrase
groups them one way and `View.demand` another way. -/
theorem append_assoc (d e f : Demand) : d ++ e ++ f = d ++ (e ++ f) := by
  ext <;> simp [Nat.add_assoc]

end

/-- A function literal whose body has demands: every name that the body captures
is read where the literal stands, and may have to be captured there in turn. -/
def closure (v : View) (body : Demand) : Demand where
  captures := v.captured body.captures
  width := ∑ name ∈ body.captures, v.reading name + 4
  literals := body.literals
  functions := body.functions + 1

/-- Statements as a branch: the value of a last expression is not discarded, and
where there is none the value is null. -/
def asBranch (d : Demand) (block : List Stmt) : Demand :=
  { d with width := if endsInExpr block then d.width - 1 else d.width + 1 }

/-- Statements as the body of a function, which returns null where it does not
end in a value. -/
def asBody (d : Demand) (block : List Stmt) : Demand :=
  { d with width := if block.getLast?.any (!·.isBind) then d.width else d.width + 1 }

end Demand

namespace View

mutual

/-- **What an expression demands.** -/
def demand (v : View) : Expr → Demand
  | .ident name _ => .name v name
  | .number n _ => .literal (.number n)
  | .boolean .. => .bytes 1
  | .string s _ => .literal (.string s)
  | .unary _ operand _ => v.demand operand ++ .bytes 1
  | .binary .less left right _ =>
    v.demand right ++ ((v.after (.expr right)).demand left ++ .bytes 1)
  | .binary _ left right _ => v.demand left ++ ((v.after (.expr left)).demand right ++ .bytes 1)
  | .cond test yes no _ =>
    let v₁ := v.after (.expr test)
    v.demand test ++ (.bytes 3 ++ (v₁.demandBranch yes ++ (.bytes 3 ++
      (v₁.after (.branch yes.body)).demandOther no)))
  | .function name params (.mk body _) _ => .closure v ((v.inside name params).demandBlock body)
  | .call callee args _ => v.demand callee ++ ((v.after (.expr callee)).demandAll args ++ .bytes 2)
  | .array items _ => v.demandAll items ++ .bytes 3
  | .index container key _ =>
    v.demand container ++ ((v.after (.expr container)).demand key ++ .bytes 1)
  | .map entries _ => v.demandPairs entries ++ .bytes 3

/-- What expressions demand. -/
def demandAll (v : View) : List Expr → Demand
  | [] => .bytes 0
  | e :: rest => v.demand e ++ (v.after (.expr e)).demandAll rest

/-- What keys and values demand. -/
def demandPairs (v : View) : List (Expr × Expr) → Demand
  | [] => .bytes 0
  | (key, value) :: rest =>
    let v₁ := v.after (.expr key)
    v.demand key ++ (v₁.demand value ++ (v₁.after (.expr value)).demandPairs rest)

/-- What a branch demands that is there. -/
def demandBranch (v : View) : Block → Demand
  | .mk body _ => (v.demandBlock body).asBranch body

/-- What a branch demands that may be missing. -/
def demandOther (v : View) : Option Block → Demand
  | some block => v.demandBranch block
  | none => .bytes 1

/-- What statements demand. -/
def demandBlock (v : View) : List Stmt → Demand
  | [] => .bytes 0
  | s :: rest => v.demandStmt s ++ (v.after (.stmt s)).demandBlock rest

/-- What a statement demands. -/
def demandStmt (v : View) : Stmt → Demand
  | .expr value _ | .ret value _ => v.demand value ++ .bytes 1
  | .bind _ value _ => v.demand value ++ .bytes (if v.inFunction then 2 else 3)

end

end View

/-- **What a phrase demands.** -/
def Phrase.demand (v : View) : Phrase → Demand
  | .expr e => v.demand e
  | .exprs es => v.demandAll es
  | .pairs entries => v.demandPairs entries
  | .branch block => (v.demandBlock block).asBranch block
  | .body block => (v.demandBlock block).asBody block
  | .stmt s => v.demandStmt s
  | .stmts ss => v.demandBlock ss

/-! ## Occurrences -/

/-- **A phrase at its place.** -/
structure Occurrence where
  /-- The names that can be seen. -/
  view : View
  /-- The offset at which its code begins, in the code of the function around
  it. -/
  offset : Nat
  /-- The phrase. -/
  phrase : Phrase

namespace Occurrence

/-- A phrase after this one, with some bytes in between. -/
def next (o : Occurrence) (gap : Nat) (p : Phrase) : Occurrence :=
  ⟨o.view.after o.phrase, o.offset + (o.phrase.demand o.view).width + gap, p⟩

/-- **The phrases that a phrase consists of**, in the order of the visit. -/
def parts : Occurrence → List Occurrence
  | ⟨v, start, p⟩ =>
    match p with
    | .expr (.ident ..) | .expr (.number ..) | .expr (.boolean ..) | .expr (.string ..) => []
    | .expr (.unary _ operand _) => [⟨v, start, .expr operand⟩]
    | .expr (.binary .less left right _) =>
      let first : Occurrence := ⟨v, start, .expr right⟩
      [first, first.next 0 (.expr left)]
    | .expr (.binary _ left right _) =>
      let first : Occurrence := ⟨v, start, .expr left⟩
      [first, first.next 0 (.expr right)]
    | .expr (.cond test yes no _) =>
      -- There is a jump after the test and another one between the branches.
      let first : Occurrence := ⟨v, start, .expr test⟩
      let second := first.next 3 (.branch yes.body)
      [first, second, second.next 3 (.branch (otherwise no))]
    | .expr (.function name params block _) => [⟨v.inside name params, 0, .body block.body⟩]
    | .expr (.call callee args _) =>
      let first : Occurrence := ⟨v, start, .expr callee⟩
      [first, first.next 0 (.exprs args)]
    | .expr (.array items _) => [⟨v, start, .exprs items⟩]
    | .expr (.index container key _) =>
      let first : Occurrence := ⟨v, start, .expr container⟩
      [first, first.next 0 (.expr key)]
    | .expr (.map entries _) => [⟨v, start, .pairs entries⟩]
    | .exprs [] | .pairs [] | .branch [] | .body [] | .stmts [] => []
    | .exprs (e :: rest) =>
      let first : Occurrence := ⟨v, start, .expr e⟩
      [first, first.next 0 (.exprs rest)]
    | .pairs ((key, value) :: rest) =>
      let first : Occurrence := ⟨v, start, .expr key⟩
      let second := first.next 0 (.expr value)
      [first, second, second.next 0 (.pairs rest)]
    | .branch (s :: rest) =>
      let first : Occurrence := ⟨v, start, .stmt s⟩
      [first, first.next 0 (.branch rest)]
    | .body (s :: rest) =>
      let first : Occurrence := ⟨v, start, .stmt s⟩
      [first, first.next 0 (.body rest)]
    | .stmts (s :: rest) =>
      let first : Occurrence := ⟨v, start, .stmt s⟩
      [first, first.next 0 (.stmts rest)]
    | .stmt (.expr value _) | .stmt (.ret value _) | .stmt (.bind _ value _) =>
      [⟨v, start, .expr value⟩]

/-- **What holds of an occurrence and of everything in it.** -/
inductive Throughout (P : Occurrence → Prop) : Occurrence → Prop where
  | intro {o : Occurrence} : P o → (∀ part ∈ o.parts, Throughout P part) → Throughout P o

namespace Throughout

variable {P : Occurrence → Prop} {o o₁ o₂ o₃ : Occurrence}

/-- A phrase without parts: all there is to show is that it is allowed itself.
The lemmas that follow do the same for phrases with one, two and three parts, so
that proofs by induction over the syntax need not look into `parts`. -/
theorem leaf (hparts : o.parts = []) (ho : P o) : Throughout P o :=
  .intro ho (by simp [hparts])

/-- A phrase with one part, such as a statement with its expression. -/
theorem one (hparts : o.parts = [o₁]) (ho : P o) (h₁ : Throughout P o₁) : Throughout P o :=
  .intro ho (by simpa [hparts] using h₁)

/-- A phrase with two parts, the second of which stands after the first. -/
theorem two (hparts : o.parts = [o₁, o₂]) (ho : P o) (h₁ : Throughout P o₁) (h₂ : Throughout P o₂) :
    Throughout P o :=
  .intro ho (by simpa [hparts] using ⟨h₁, h₂⟩)

/-- A phrase with three parts: a conditional, or an entry of a map and those
after it. -/
theorem three (hparts : o.parts = [o₁, o₂, o₃]) (ho : P o) (h₁ : Throughout P o₁)
    (h₂ : Throughout P o₂) (h₃ : Throughout P o₃) : Throughout P o :=
  .intro ho (by simpa [hparts] using ⟨h₁, h₂, h₃⟩)

end Throughout

/-- All binary operators but one are visited from the left to the right. The
comparison for less is the one that is not: it is compiled as a comparison for
greater, with its sides exchanged. -/
theorem parts_binary {v : View} {start : Nat} {op : BinaryOp} {left right : Expr} {span : Span}
    (h : op ≠ .less) : parts ⟨v, start, .expr (.binary op left right span)⟩ =
      [⟨v, start, .expr left⟩, next ⟨v, start, .expr left⟩ 0 (.expr right)] := by
  cases op <;> first | rfl | exact (h rfl).elim

/-- **What is allowed where it stands**: names are read that can be seen,
numbers are finite, functions return, and what an operand counts is within its
limit. -/
def Allowed : Occurrence → Prop
  | ⟨v, start, p⟩ =>
    match p with
    | .expr (.ident name _) => v.storage? name ≠ none
    | .expr (.number n _) => n.isFinite = true
    | .expr (.cond ..) => start + (p.demand v).width ≤ 65535
    | .expr (.function name params block _) =>
      params.length ≤ 255 ∧ ((Names.ofFunction name params).skipBlock block.body).sites ≤ 256 ∧
        ((v.inside name params).demandBlock block.body).captures.card ≤ 255
    | .expr (.call _ args _) => args.length ≤ 255
    | .expr (.array items _) => items.length ≤ 65535
    | .expr (.map entries _) => entries.length ≤ 32767
    | .stmt (.ret ..) => v.inFunction = true
    | _ => True

end Occurrence

/-- **A program that can be compiled.** -/
structure Admissible (program : List Stmt) : Prop where
  /-- Everything is allowed where it stands. -/
  allowed : Occurrence.Throughout Occurrence.Allowed ⟨.top, 0, .stmts program⟩
  /-- There are no more globals than an operand can name. -/
  globals : (Names.empty.skipBlock program).sites ≤ 65536
  /-- There are no more constants than an operand can name. -/
  constants : (View.top.demandBlock program).literals.card +
    (View.top.demandBlock program).functions ≤ 65536

end StackScript
