import StackScript.Compiler.Basic
import StackScript.Machine.Step
import StackScript.Syntax.Parser

/-!
# Sessions

A **session** evaluates one program after another. What a program leaves behind
for the next are its names, its constants and its globals; the code of earlier
programs lives on in the closures that the globals hold.

A program that cannot be read or compiled leaves nothing behind. A program that
fails while it runs leaves behind the names it bound and, unless the session is
atomic, the globals it set before it failed.
-/

namespace StackScript

/-- **How a session treats what programs leave behind.** -/
structure SessionConfig where
  /-- Whether anything is left behind at all: if not, every program starts
  afresh. -/
  persistent : Bool := true
  /-- Whether a program that fails while it runs leaves the globals as they
  were. -/
  atomic : Bool := false
  /-- The instructions that each program may execute, if they are counted. -/
  budget : Option Nat := none
deriving DecidableEq, Inhabited

/-- **Why a program was not evaluated.** -/
inductive SessionError where
  /-- It cannot be read. -/
  | parse (errors : List ParseError)
  /-- It cannot be compiled. -/
  | compile (error : CompileError)
  /-- It did not run to its end. -/
  | runtime (cause : Halt)
deriving DecidableEq

namespace SessionError

/-- The wording of an error, a line for each syntax error. -/
def message : SessionError → String
  | parse errors => "\n".intercalate (errors.map fun e => "parse error: " ++ e.text)
  | compile e => "compile error: " ++ e.text
  | runtime cause => "runtime error: " ++ cause.message

/-- The wording of what is behind an error; of several syntax errors, the
first. -/
def source? : SessionError → Option String
  | parse errors => errors.head?.map ParseError.text
  | compile e => some e.text
  | runtime cause => some cause.message

end SessionError

/-- **What programs have left behind**, and how it is treated. -/
structure Session where
  /-- How the session treats what programs leave behind. -/
  config : SessionConfig
  /-- The names that the next program can see. -/
  symbols : SymbolTable
  /-- The constants of all programs. -/
  constants : Array Value
  /-- The global variables. -/
  globals : Globals
  /-- The identity that the next closure will have. -/
  nextIdentity : Nat
deriving Inhabited

/-- **What an evaluation came to.** -/
structure Report (α : Type) where
  /-- The result, or why there is none. -/
  result : Except SessionError α
  /-- What was written. -/
  output : String
  /-- What was recorded. -/
  journal : Journal
  /-- The session afterwards. -/
  session : Session

/-- The report with its result changed. -/
def Report.map {α β : Type} (f : α → β) (r : Report α) : Report β :=
  { r with result := r.result.map f }

namespace Session

/-- A session before its first program. -/
def start (config : SessionConfig) : Session :=
  ⟨config, .initial, #[], .empty, 0⟩

/-- The session with everything forgotten that programs have left behind. -/
def reset (s : Session) : Session :=
  { s with symbols := .initial, constants := #[], globals := .empty }

/-- What the next program starts from. -/
def prepared (s : Session) : Session := if s.config.persistent then s else s.reset

/-- **Compiles a program** against what the programs before it left behind. If it
fails, the names are those before, and the constants that it has added are
dropped. -/
def compile (s : Session) (program : List Stmt) : Except CompileError Bytecode × Session :=
  let s := s.prepared
  match (Compiler.withState s.symbols s.constants).compile program with
  | (.error e, c) => (.error e, { s with constants := c.constants.take s.constants.size })
  | (.ok (), c) => (.ok c.bytecode, { s with symbols := c.symbols, constants := c.constants })

/-- **Compiles and runs a program**: its value is the value discarded last. -/
def eval (s : Session) (journal : Journal) (program : List Stmt) : Report Value :=
  match s.compile program with
  | (.error e, s) => ⟨.error (.compile e), "", journal, s⟩
  | (.ok bytecode, s) =>
    let journal := journal.record fun _ =>
      .compiled program.length bytecode.code.size bytecode.constants.size
    let machine := Machine.load bytecode s.globals s.config.budget s.nextIdentity journal
    let (outcome, m) := machine.run
    let after := { s with globals := m.globals, nextIdentity := m.nextIdentity }
    match outcome with
    | .ok () =>
      let journal := m.journal.record fun _ => .evaluated m.globals.size s.constants.size
      ⟨.ok m.lastPopped, m.output, journal, after⟩
    | .error cause =>
      if s.config.atomic then
        let journal :=
          match cause with
          | .error e => m.journal.record fun _ => .rolledBack e
          | _ => m.journal
        ⟨.error (.runtime cause), m.output, journal, { after with globals := s.globals }⟩
      else ⟨.error (.runtime cause), m.output, m.journal, after⟩

/-- **Compiles a source** without running it. -/
def compileSource (s : Session) (journal : Journal) (source : String) : Report Bytecode :=
  match parse source with
  | .error errors => ⟨.error (.parse errors), "", journal, s⟩
  | .ok program =>
    match s.compile program with
    | (.error e, s) => ⟨.error (.compile e), "", journal, s⟩
    | (.ok bytecode, s) =>
      let journal := journal.record fun _ =>
        .compiled program.length bytecode.code.size bytecode.constants.size
      ⟨.ok bytecode, "", journal, s⟩

/-- **Evaluates a source.** -/
def evalSource (s : Session) (journal : Journal) (source : String) : Report Value :=
  match parse source with
  | .error errors => ⟨.error (.parse errors), "", journal, s⟩
  | .ok program => s.eval journal program

/-- Whether a program ends in a binding, which has no value worth showing. -/
def endsInBinding (program : List Stmt) : Bool :=
  match program.getLast? with
  | some (.bind ..) => true
  | _ => false

/-- **Evaluates a line of input**: its value, unless the line ends in a
binding. -/
def evalLine (s : Session) (journal : Journal) (source : String) : Report (Option Value) :=
  match parse source with
  | .error errors => ⟨.error (.parse errors), "", journal, s⟩
  | .ok program =>
    (s.eval journal program).map fun v => if endsInBinding program then none else some v

end Session

end StackScript
