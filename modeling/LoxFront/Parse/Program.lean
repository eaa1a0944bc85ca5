import LoxFront.Options
import LoxFront.Parse.Statement
import LoxFront.Text.Lines

/-!
# Parsing programs

A program is parsed statement by statement until the end of the input, or until the error budget
is spent.  `Parse.ofTokens` parses a stream of tokens, and `Parse.ofText` a text.
-/

namespace LoxFront

/-- What is known of a program after reading it: its entries, and the errors and warnings. -/
structure ParseResult (σ : Type) where
  statements : List (Option σ)
  collector : Collector

namespace ParseResult

variable {σ : Type}

/-- Whether there were errors. -/
def hasErrors (r : ParseResult σ) : Bool := r.collector.hasErrors

/-- The statements that could be read. -/
def valid (r : ParseResult σ) : List σ := r.statements.filterMap id

/-- The failure that the errors make up, if there are any. -/
def failure? (r : ParseResult σ) : Option Failure := r.collector.failure?

end ParseResult

namespace Parse

/-! ### Statement by statement -/

/-- The entries of a program from the cursor on.  When the budget is spent after a statement, reading
stops there.  A closing brace under the cursor is not passed while a block is thought to be open; then
only the budget or the hook puts an end to the work, and the fuel allows for both. -/
def entries (budget : Nat) : Nat → Action Program
  | 0 => throw .endless
  | fuel + 1 => do
    if (← get).cursor.atEnd then return []
    else
      let entry ← statement
      let s ← get
      if budgetSpent budget s.mismatches.length then
        set (s.note (.stopped s.mismatches.length s.cursor.current))
        return [entry]
      else
        let rest ← entries budget fuel
        return entry :: rest

/-- The greatest number of rounds without an end: one for each token, each error in the budget, and
each call of the hook up to its last interruption. -/
def roundsLeft (budget : Nat) : Action Nat := do
  let left ← tokensLeft
  return left + budget + (← get).hook.interrupts.foldl max 0 + 1

/-- A whole program.  Line ends in front of it are passed over. -/
def program (budget : Nat) : Action Program := do
  skipLines
  let p ← entries budget (← roundsLeft budget)
  modify fun s => s.note (.finished p.length s.mismatches.length)
  return p

/-! ### Streams and texts -/

/-- Why tokens or a text cannot be parsed at all. -/
inductive Fault where
  /-- The text is not made of tokens. -/
  | lexical (e : LexicalError)
  /-- The stream of tokens does not end with an end-of-input token. -/
  | unterminated
  /-- Parsing was left early. -/
  | exit (e : Exit)
deriving DecidableEq, Repr

/-- The message about a stream without an end-of-input token. -/
def unterminatedMessage : String := "token stream must end with an EOF token"

/-- What parsing gives: the result, the calls of the hook, and the log. -/
structure Outcome where
  result : ParseResult Stmt
  reports : List Report
  log : List LogRecord

/-- The state in front of a stream. -/
def start? (tokens : List Token) (hook : Hook) : Option State :=
  (Cursor.start? tokens).map fun c => { cursor := c, hook := hook }

/-- The outcome of parsing that ended in a state with a program. -/
def outcome (options : Options) (lines : List String) (p : Program) (s : State) : Outcome where
  result :=
    ⟨if options.keepPlaceholders then p else p.filter Option.isSome,
      s.collector options.file lines options.maxErrors⟩
  reports := s.reports
  log := s.events.map (Event.record options.file)

/-- Parses a stream of tokens, given the lines of the source. -/
def ofTokens (options : Options) (hook : Hook) (lines : List String) (tokens : List Token) :
    Except Fault Outcome :=
  match start? tokens hook with
  | none => .error .unterminated
  | some s =>
    match program options.maxErrors s with
    | .ok p s => .ok (outcome options lines p s)
    | .error e _ => .error (.exit e)

/-- The log record about the tokens of a source. -/
def scannedRecord (file : String) (tokens : List Token) : LogRecord :=
  ⟨.debug, .scanner, "Scanned " ++ toString tokens.length ++ " tokens from " ++ file⟩

/-- Parses a text. -/
def ofText (options : Options) (hook : Hook) (text : String) : Except Fault Outcome :=
  match Token.scan text.toList with
  | .error e => .error (.lexical e)
  | .ok tokens => do
    let parsed ← ofTokens options hook (Text.lines text) tokens
    return { parsed with log := scannedRecord options.file tokens :: parsed.log }

end Parse

end LoxFront
