import StackScript.Session

/-!
# Options of the command line

The command line takes source files to be evaluated in order, and flags that may
stand anywhere among them. After two hyphens alone every argument is a file.
-/

namespace StackScript

/-- **What the command line asks for.** -/
structure Options where
  /-- The source files, in order. -/
  files : List String
  /-- Read from the console after the files. -/
  repl : Bool
  /-- List the bytecode of the files instead of running them. -/
  dump : Bool
  /-- Start every program afresh. -/
  fresh : Bool
  /-- Leave the globals as they were when a program fails. -/
  atomic : Bool
  /-- The instructions that each program may execute, if they are counted. -/
  budget : Option Nat
deriving DecidableEq, Inhabited

namespace Options

/-- Nothing asked for. -/
def empty : Options := ⟨[], false, false, false, false, none⟩

/-- The greatest number of instructions that can be asked for. -/
def maxBudget : Nat := UInt64.size - 1

/-- A count in decimal digits, perhaps after a plus sign. -/
def count? (s : String) : Option Nat :=
  let digits :=
    match s.toList with
    | '+' :: rest => rest
    | chars => chars
  if digits.isEmpty || !digits.all Char.isDigit then none
  else
    let n := digits.foldl (fun n c => 10 * n + (c.toNat - '0'.toNat)) 0
    if n ≤ maxBudget then some n else none

/-- The options with one more file. -/
def addFile (o : Options) (name : String) : Options := { o with files := o.files ++ [name] }

/-- The options with the instructions counted, unless they already are. -/
def setBudget? (o : Options) (value : String) : Option Options :=
  match o.budget, count? value with
  | none, some n => some { o with budget := some n }
  | _, _ => none

/-- The options with a flag set that takes no value, unless it already is. -/
def setFlag? (o : Options) (flag : String) : Option Options :=
  match flag with
  | "--repl" => if o.repl then none else some { o with repl := true }
  | "--dump-bytecode" => if o.dump then none else some { o with dump := true }
  | "--fresh" => if o.fresh then none else some { o with fresh := true }
  | "--atomic" => if o.atomic then none else some { o with atomic := true }
  | _ => none

/-- The value in an argument that gives the number of instructions after an
equals sign. -/
def inlineBudget? (arg : String) : Option String :=
  let flag := "--max-instructions=".toList
  if flag.isPrefixOf arg.toList then some (String.ofList (arg.toList.drop flag.length))
  else none

/-- **Reads the arguments** after some that were read already; nothing if the
command line cannot be understood. -/
def parseFrom (o : Options) : List String → Option Options
  | [] => some o
  | "--" :: files => some { o with files := o.files ++ files }
  | ["--max-instructions"] => none
  | "--max-instructions" :: value :: rest =>
    match o.setBudget? value with
    | some o => parseFrom o rest
    | none => none
  | arg :: rest =>
    match inlineBudget? arg with
    | some value =>
      match o.setBudget? value with
      | some o => parseFrom o rest
      | none => none
    | none =>
      if arg.startsWith "-" && arg != "-" then
        match o.setFlag? arg with
        | some o => parseFrom o rest
        | none => none
      else parseFrom (o.addFile arg) rest

/-- **Reads the arguments of the command line.** -/
def parse? (args : List String) : Option Options := parseFrom empty args

/-- The session that the options ask for. -/
def session (o : Options) : Session :=
  .start ⟨!o.fresh, o.atomic, o.budget⟩

/-- Whether to read from the console. -/
def interactive (o : Options) : Bool := !o.dump && (o.repl || o.files.isEmpty)

end Options

end StackScript
