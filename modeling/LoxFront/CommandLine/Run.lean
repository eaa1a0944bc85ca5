import LoxFront.CommandLine.Arguments
import LoxFront.CommandLine.Files
import LoxFront.Parse.Program
import LoxFront.Text.Terminal
import LoxFront.Text.Utf8
import LoxFront.Tree.Render

/-!
# The command

The command reads a program and writes its tree to the standard output.  The errors and, on demand,
a log of the work go to the standard error output.  The exit status tells how it went.  All of it
is a function of the arguments and of what the command finds around it (`CommandLine.run`).
-/

namespace LoxFront.CommandLine

/-! ### Results -/

/-- The exit status. -/
inductive Status where
  | success
  /-- The program has errors. -/
  | syntaxError
  /-- The arguments are wrong, or the input cannot be read. -/
  | invalidInput
  /-- Something that should not happen did. -/
  | internalError
deriving DecidableEq, Repr

/-- The number of a status. -/
def Status.code : Status → Nat
  | success => 0
  | syntaxError => 1
  | invalidInput => 2
  | internalError => 3

/-- What the command writes, and its exit status. -/
structure Response where
  status : Status
  output : String
  errors : String
deriving DecidableEq, Repr

/-- A line on an output that is no terminal. -/
def line (text : String) : String := Text.plain text ++ "\n"

/-- The lines of the log that are shown: all of them with their sources, or only the warnings. -/
def logText (verbose : Bool) (log : List LogRecord) : String :=
  let shown :=
    if verbose then log.map LogRecord.text
    else (log.filter fun r => r.level == .warning).map LogRecord.brief
  String.join (shown.map (· ++ "\n"))

/-! ### Problems -/

/-- What keeps the command from its work. -/
inductive Problem where
  /-- The program cannot be read; the text says why. -/
  | program (text : String)
  /-- The input cannot be read. -/
  | input (text : String)
  /-- Something that should not happen did. -/
  | internal (text : String)
deriving DecidableEq, Repr

namespace Problem

/-- The status that goes with a problem. -/
def status : Problem → Status
  | program _ => .syntaxError
  | input _ => .invalidInput
  | internal _ => .internalError

/-- What is written about a problem.  Behind an internal one the verbose command shows where it
arose, which is known of no problem that is reported here. -/
def text (verbose : Bool) : Problem → String
  | program text => line text
  | input text => line ("Error: " ++ text)
  | internal text =>
    line ("Internal error: " ++ text) ++ (if verbose then "NoneType: None\n" else "")

/-- The response to a problem. -/
def response (verbose : Bool) (p : Problem) : Response := ⟨p.status, "", p.text verbose⟩

/-- The problem that a fault in parsing is. -/
def ofFault (file : String) : Parse.Fault → Problem
  | .lexical e => program (e.diagnostic file).text
  | .unterminated => internal Parse.unterminatedMessage
  | .exit (.mismatch m) => program (m.diagnostic file []).text
  | .exit .interrupted => internal "interrupted"
  | .exit .endless => internal "endless"

end Problem

/-! ### The work -/

/-- What the command finds around it. -/
structure Surroundings where
  /-- What the paths lead to. -/
  lookup : String → Option FileEntry
  standardInput : List UInt8
  /-- The values of the environment variables. -/
  environment : String → Option String

/-- The name of an input in messages. -/
def inputName (input : String) : String := if input = "-" then "<stdin>" else input

/-- The bytes of an input. -/
def inputBytes (around : Surroundings) (input : String) : Except UsageError (List UInt8) :=
  if input = "-" then .ok around.standardInput
  else match around.lookup input with
    | some (.file content) => .ok content
    | some .directory => .error (.isDirectory input)
    | none => .error (.noSuchFile input)

/-- The tree of a program as output. -/
def rendering (forms : Bool) (p : Program) : String :=
  if forms then String.join (p.forms.map line) else line p.listingText

/-- The log record about an input that was read. -/
def readRecord (file : String) (length : Nat) : LogRecord :=
  ⟨.debug, .command, "Read " ++ toString length ++ " characters from " ++ file⟩

/-- The response to a program that was parsed. -/
def parsedResponse (job : Job) (p : Parse.Outcome) : Response :=
  let failure := p.result.failure?
  { status := if failure.isSome then .syntaxError else .success
    output := rendering job.forms p.result.statements
    errors := logText job.verbose p.log ++ (failure.map fun f => line f.report).getD "" }

/-- The response to a text. -/
def textResponse (job : Job) (options : Options) (text : String) : Response :=
  match Parse.ofText options {} text with
  | .ok p => parsedResponse job p
  | .error e => (Problem.ofFault options.file e).response job.verbose

/-- Puts lines of the log in front of a response. -/
def Response.behind (log : String) (r : Response) : Response := { r with errors := log ++ r.errors }

/-- Does a job with the bytes of its input.  Options come from the environment, but the name of the
input is its own, and a budget among the arguments goes before. -/
def jobResponse (job : Job) (environment : String → Option String) (bytes : List UInt8) : Response :=
  let (options, warnings) := Options.ofVariables environment
  let options :=
    { options with
      file := inputName job.input
      maxErrors := job.maxErrors.getD options.maxErrors }
  let response :=
    match Text.Utf8.decode bytes with
    | .error fault => (Problem.input fault.message).response job.verbose
    | .ok chars =>
      let text := Text.newlines chars
      let log := logText job.verbose [readRecord options.file text.length]
      (textResponse job options (String.ofList text)).behind log
  response.behind (logText job.verbose warnings)

/-! ### Questions about the command -/

/-- The answer to a question about the command. -/
def answer : Inquiry → String
  | .version => "loxp, version 1.0.0\n"
  | .help =>
    "Usage: loxp [OPTIONS] INPUT_FILE\n\n" ++
    "  Parse a Lox program and print its syntax tree.\n\n" ++
    "Options:\n" ++
    "  --sexpr                Print one s-expression per statement\n" ++
    "  --max-errors INTEGER   Stop after this many errors (0 = no limit)\n" ++
    "  -v, --verbose          Verbose output\n" ++
    "  --version              Show the version and exit.\n" ++
    "  --help                 Show this message and exit.\n"

/-- The response to the arguments of the command, or the reason why they are refused. -/
def run (around : Surroundings) (args : List String) : Except UsageError Response := do
  match ← Request.ofArguments args with
  | .inquiry i => return ⟨.success, answer i, ""⟩
  | .job job => return jobResponse job around.environment (← inputBytes around job.input)

end LoxFront.CommandLine
