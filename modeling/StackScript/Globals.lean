import StackScript.Value.Basic

/-!
# Global variables

Globals are numbered slots that come into being when they are first set. A slot
that does not exist yet reads as null, and setting one brings those before it
into being.
-/

namespace StackScript

/-- **The slots of the global variables.** -/
structure Globals where
  /-- The values of the slots that exist. -/
  slots : Array Value
deriving Inhabited

namespace Globals

/-- No slots. -/
def empty : Globals := ⟨#[]⟩

/-- The number of slots that exist. -/
def size (g : Globals) : Nat := g.slots.size

/-- The value of a slot. -/
def get (g : Globals) (index : Nat) : Value := g.slots[index]?.getD .null

/-- The slots after setting one. -/
def set (g : Globals) (index : Nat) (v : Value) : Globals :=
  if index < g.slots.size then ⟨g.slots.setIfInBounds index v⟩
  else ⟨(g.slots ++ Array.replicate (index - g.slots.size) Value.null).push v⟩

end Globals

end StackScript
