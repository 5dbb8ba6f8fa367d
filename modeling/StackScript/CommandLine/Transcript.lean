import StackScript.CommandLine.Options
import StackScript.Text.Blank

/-!
# What the command line shows

Each thing the command line does – evaluating a file, answering a line of input –
is a function from the session before to what is shown and the session after.
`CommandLine.run` puts them together: the whole of what is shown, for given
arguments, files and input.
-/

namespace StackScript

/-- **What is shown** on the two outputs of a console. -/
structure Shown where
  /-- On the ordinary output. -/
  out : String
  /-- On the output for errors. -/
  err : String
deriving DecidableEq, Inhabited

/-- One thing shown after another. -/
def Shown.append (a b : Shown) : Shown := ⟨a.out ++ b.out, a.err ++ b.err⟩

/-- **Why a file or a line cannot be read.** -/
inductive ReadError where
  /-- There is no file of that name. -/
  | notFound
  /-- The name is that of a directory. -/
  | isDirectory
  /-- The bytes encode no text. -/
  | invalidText
  /-- Anything else, in the words of the system. -/
  | other (reason : String)
deriving DecidableEq

/-- The wording of a read error. -/
def ReadError.message : ReadError → String
  | notFound => "No such file or directory (os error 2)"
  | isDirectory => "Is a directory (os error 21)"
  | invalidText => "stream did not contain valid UTF-8"
  | other reason => reason

/-- The text that bytes encode. -/
def decodeText (bytes : List UInt8) : Except ReadError String :=
  match String.fromUTF8? ⟨bytes.toArray⟩ with
  | some text => .ok text
  | none => .error .invalidText

namespace CommandLine

/-- A journal that nobody reads. -/
def unread : Journal := .empty false

/-- **Takes up a file**: what is shown, and the session afterwards, unless the
command line ends here. -/
def runFile (dump : Bool) (s : Session) (name : String) (contents : Except ReadError String) :
    Shown × Option Session :=
  match contents with
  | .error e => (⟨"", s!"Error reading file '{name}': {e.message}\n"⟩, none)
  | .ok source =>
    if dump then
      let r := s.compileSource unread source
      match r.result with
      | .ok bytecode => (⟨s!"== {name} ==\n{bytecode.listing}", ""⟩, some r.session)
      | .error e => (⟨"", s!"Error compiling {name}: {e.message}\n"⟩, none)
    else
      let r := s.evalSource unread source
      match r.result with
      | .ok _ => (⟨r.output, ""⟩, some r.session)
      | .error e => (⟨r.output, s!"Error executing {name}: {e.message}\n"⟩, none)

/-- Takes up files in order, after something was shown. -/
def runFiles (dump : Bool) (read : String → Except ReadError String) (shown : Shown)
    (s : Session) : List String → Shown × Option Session
  | [] => (shown, some s)
  | name :: rest =>
    match runFile dump s name (read name) with
    | (more, some s) => runFiles dump read (shown.append more) s rest
    | (more, none) => (shown.append more, none)

/-- What the console says first. -/
def greeting : String := "Type 'exit' to quit.\n"

/-- What stands before each line of input. -/
def prompt : String := ">> "

/-- **Answers a line of input**: what is shown, and the session afterwards,
unless the line asks to quit. -/
def respond (s : Session) (line : String) : Shown × Option Session :=
  let input := trimBlanks line
  if input = "exit" then (⟨"", ""⟩, none)
  else if input = "" then (⟨"", ""⟩, some s)
  else
    let r := s.evalLine unread input
    match r.result with
    | .ok (some v) => (⟨r.output ++ v.text ++ "\n", ""⟩, some r.session)
    | .ok none => (⟨r.output, ""⟩, some r.session)
    | .error e => (⟨r.output, s!"Error: {e.message}\n"⟩, some r.session)

/-- What is shown for a line that cannot be read. -/
def unreadable (e : ReadError) : Shown := ⟨"", s!"Error reading input: {e.message}\n"⟩

/-- Answers lines of input in order, after something was shown. -/
def respondAll (shown : Shown) (s : Session) : List (List UInt8) → Shown
  | [] => shown.append ⟨prompt, ""⟩
  | line :: rest =>
    let shown := shown.append ⟨prompt, ""⟩
    match decodeText line with
    | .error e => shown.append (unreadable e)
    | .ok text =>
      match respond s text with
      | (more, some s) => respondAll (shown.append more) s rest
      | (more, none) => shown.append more

/-- **The lines of an input**, each with the line feed that ends it, after the
bytes of a line already begun. -/
def linesFrom (line : List UInt8) (found : List (List UInt8)) :
    List UInt8 → List (List UInt8)
  | [] => (if line.isEmpty then found else line.reverse :: found).reverse
  | byte :: rest =>
    if byte = 0x0A then linesFrom [] ((byte :: line).reverse :: found) rest
    else linesFrom (byte :: line) found rest

/-- **What a call of the program came to.** -/
structure Transcript where
  /-- The exit code. -/
  exitCode : Nat
  /-- What was shown. -/
  shown : Shown
deriving DecidableEq, Inhabited

/-- **The whole of what the program shows**, given what a file name reads as, and
the input. Nothing if the arguments cannot be understood. -/
def run (args : List String) (read : String → Except ReadError String) (input : List UInt8) :
    Option Transcript :=
  (Options.parse? args).map fun o =>
    match runFiles o.dump read ⟨"", ""⟩ o.session o.files with
    | (shown, none) => ⟨1, shown⟩
    | (shown, some s) =>
      if o.interactive then ⟨0, respondAll (shown.append ⟨greeting, ""⟩) s (linesFrom [] [] input)⟩
      else ⟨0, shown⟩

end CommandLine

end StackScript
