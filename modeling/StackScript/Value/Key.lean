import StackScript.Number.Text

/-!
# Keys and insertion-ordered entries

Numbers, booleans and strings can be **keys** of a map. Two keys are the same
when their canonical forms are: the two zeros are one key, and a NaN, which
equals nothing, is still the same key as a NaN with its bits.

The entries of a map stand in the order in which their keys were first
inserted. Inserting under a key that is present replaces key and value where
they stand.
-/

namespace StackScript

/-- **What a map may be indexed by.** -/
inductive Key where
  /-- A number. -/
  | number (value : Number)
  /-- A truth value. -/
  | boolean (value : Bool)
  /-- A string. -/
  | string (value : String)
deriving DecidableEq

namespace Key

/-- The representative of a key among the keys it is the same as. -/
def canonical : Key → Key
  | number n => number n.canonical
  | k => k

/-- **Whether two keys find the same entry.** -/
def same (a b : Key) : Bool := a.canonical = b.canonical

/-- The text of a key. -/
def text : Key → String
  | number n => n.text
  | boolean b => if b then "true" else "false"
  | string s => s

end Key

/-- **Entries in the order of insertion.** -/
abbrev Entries (α : Type) := List (Key × α)

namespace Entries

variable {α : Type}

/-- The entries after an insertion: in place of the entry of the same key, or
else at the end. -/
def insert (key : Key) (value : α) : Entries α → Entries α
  | [] => [(key, value)]
  | entry :: rest =>
    if key.same entry.1 then (key, value) :: rest else entry :: insert key value rest

/-- The value under a key. -/
def find? (key : Key) : Entries α → Option α
  | [] => none
  | entry :: rest => if key.same entry.1 then some entry.2 else find? key rest

end Entries

end StackScript
