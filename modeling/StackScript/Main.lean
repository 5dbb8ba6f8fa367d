import StackScript.CommandLine.Transcript

/-!
# The program

Reads the arguments, the files and the console, and shows what the command line
says. Nothing is decided here.
-/

namespace StackScript.Program

/-- Shows something on the console. -/
def display (shown : Shown) : IO Unit := do
  let out ← IO.getStdout
  out.putStr shown.out
  out.flush
  (← IO.getStderr).putStr shown.err

/-- What a file reads as. -/
def readSource (name : String) : IO (Except ReadError String) := do
  try
    let bytes ← IO.FS.readBinFile name
    pure (decodeText bytes.data.toList)
  catch e =>
    match e with
    | .noFileOrDirectory .. => pure (.error .notFound)
    | e => pure (.error (.other (toString e)))

/-- Takes up files in order. -/
partial def runFiles (dump : Bool) (s : Session) : List String → IO (Option Session)
  | [] => pure (some s)
  | name :: rest => do
    let (shown, next) := CommandLine.runFile dump s name (← readSource name)
    display shown
    match next with
    | some s => runFiles dump s rest
    | none => pure none

/-- Answers lines of input until there are no more. -/
partial def converse (s : Session) : IO Unit := do
  display ⟨CommandLine.prompt, ""⟩
  let line ← (← IO.getStdin).getLine
  if line.isEmpty then return
  let (shown, next) := CommandLine.respond s line
  display shown
  match next with
  | some s => converse s
  | none => pure ()

end StackScript.Program

open StackScript StackScript.Program in
/-- **The program.** -/
def main (args : List String) : IO UInt32 := do
  match Options.parse? args with
  | none =>
    IO.eprintln "error: invalid arguments"
    pure 2
  | some o =>
    match ← runFiles o.dump o.session o.files with
    | none => pure 1
    | some s =>
      if o.interactive then
        display ⟨CommandLine.greeting, ""⟩
        converse s
      pure 0
