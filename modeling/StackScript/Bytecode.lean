import StackScript.Text.Quoted
import StackScript.Value.Basic

/-!
# Bytecode

**Bytecode** is what the compiler makes and the machine runs: the code of the top
level, and the pool of constants that all code refers to by index. Routines are
constants of the pool.
-/

namespace StackScript

/-- **Code with the constants it refers to.** -/
structure Bytecode where
  /-- The instructions of the top level. -/
  code : Code
  /-- The pool of constants. -/
  constants : Array Value
deriving Inhabited

/-- The lines that list the constant of an index: a routine with its code, a
string in quotes, any other value as its text. -/
def constantLines (index : Nat) : Value → List String
  | .routine body =>
    s!"  #{index} fn/{body.params} locals={body.locals}" ::
      body.code.listingLines.map ("      " ++ ·)
  | .string s => [s!"  #{index} {quoted s}"]
  | v => [s!"  #{index} {v.text}"]

/-- **The listing of bytecode**: the constants, then the top level. -/
def Bytecode.listing (b : Bytecode) : String :=
  let constants := b.constants.toList.zipIdx.flatMap fun (v, index) => constantLines index v
  let lines :=
    "constants:" :: constants ++ "instructions:" :: b.code.listingLines.map ("  " ++ ·)
  String.join (lines.map (· ++ "\n"))

end StackScript
