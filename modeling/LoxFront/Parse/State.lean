import LoxFront.Diagnostic.Collector
import LoxFront.Log
import LoxFront.Parse.Cursor

/-!
# Parsing steps

Parsing works on a `Parse.State`: the cursor, the number of open blocks, and what has happened so
far.  A step (`Parse.Action`) changes the state and gives a value, or leaves early (`Parse.Exit`).

An error is always recorded where it is found, and handed to a hook, before anything else happens.
The hook may interrupt the work, which nothing but the caller notices.
-/

namespace LoxFront.Parse

/-- What happens in the course of parsing. -/
inductive Event where
  /-- An error was recorded. -/
  | reported (m : Mismatch)
  /-- Reading goes on after an error, with this token. -/
  | resumed (t : Token)
  /-- The budget was spent after so many errors, in front of this token. -/
  | stopped (errors : Nat) (t : Token)
  /-- The end was reached, with so many entries and errors. -/
  | finished (entries errors : Nat)
deriving DecidableEq, Repr

/-- A call of the hook: the line, the token and the message of an error. -/
structure Report where
  line : Int
  token : Token
  message : String
deriving DecidableEq, Repr

/-- The report on an error. -/
def Report.ofMismatch (m : Mismatch) : Report := ⟨m.token.line, m.token, m.message⟩

/-- The hook that is told of errors, known by the numbers of the calls that it interrupts.  Calls
are counted from one. -/
structure Hook where
  interrupts : List Nat := []
deriving DecidableEq, Repr

/-- The state of parsing. -/
structure State where
  cursor : Cursor
  /-- The number of open blocks. -/
  depth : Int := 0
  /-- What has happened. -/
  events : List Event := []
  /-- The calls of the hook. -/
  reports : List Report := []
  hook : Hook := {}
deriving DecidableEq, Repr

/-- Why a step gives no value. -/
inductive Exit where
  /-- The tokens do not fit; the error has been recorded. -/
  | mismatch (m : Mismatch)
  /-- The hook interrupted the work. -/
  | interrupted
  /-- The work would never end. -/
  | endless
deriving DecidableEq, Repr

/-- A step of parsing. -/
abbrev Action (α : Type) := EStateM Exit State α

/-! ### Events -/

namespace Event

/-- The error that an event records. -/
def mismatch? : Event → Option Mismatch
  | reported m => some m
  | _ => none

/-- The message of the warning that an event brings about. -/
def warning? : Event → Option (String × Token)
  | stopped errors t => some ("too many errors (" ++ toString errors ++ "), parsing stopped", t)
  | _ => none

/-- The record of an event in the log. -/
def record (file : String) : Event → LogRecord
  | reported m =>
    ⟨.debug, .parser,
      "Syntax error: " ++ m.message ++ " (" ++ m.place ++ ", line " ++ toString m.token.line ++ ")"⟩
  | resumed t =>
    ⟨.debug, .parser, "Sync point: " ++ t.description ++ " on line " ++ toString t.line⟩
  | stopped errors t =>
    ⟨.warning, .parser,
      "Too many errors (" ++ toString errors ++ "), stopped parsing at line " ++ toString t.line⟩
  | finished entries errors =>
    ⟨.debug, .parser,
      "Parsed " ++ toString entries ++ " statements from " ++ file ++ " with " ++ toString errors ++
        " errors"⟩

end Event

namespace State

/-- The errors recorded so far. -/
def mismatches (s : State) : List Mismatch := s.events.filterMap Event.mismatch?

/-- The warnings so far: their messages, and the tokens they are at. -/
def warnings (s : State) : List (String × Token) := s.events.filterMap Event.warning?

/-- Adds an event. -/
def note (e : Event) (s : State) : State := { s with events := s.events ++ [e] }

/-- Moves the cursor. -/
def moveTo (c : Cursor) (s : State) : State := { s with cursor := c }

/-- The errors and warnings about a source, given its name and lines. -/
def collector (file : String) (lines : List String) (budget : Nat) (s : State) : Collector where
  errors := s.mismatches.map (Mismatch.diagnostic file lines)
  warnings := s.warnings.map fun (message, t) =>
    Collector.warningText (some (t.location file)) message
  budget := budget

end State

/-! ### Errors -/

/-- Records an error and hands it to the hook. -/
def report (m : Mismatch) : Action Unit := do
  modify (State.note (.reported m))
  modify fun s => { s with reports := s.reports ++ [.ofMismatch m] }
  let s ← get
  if s.hook.interrupts.contains s.reports.length then throw .interrupted

/-- Records an error and gives up. -/
def fail {α : Type} (m : Mismatch) : Action α := do
  report m
  throw (.mismatch m)

/-- Gives up at the token under the cursor. -/
def failHere {α : Type} (rule : Rule) (message : String) : Action α := do
  fail ⟨rule, message, (← get).cursor.current⟩

/-! ### Tokens -/

/-- Takes the token under the cursor if its kind passes a test. -/
def takeIf (test : Kind → Bool) : Action (Option Token) := do
  let c := (← get).cursor
  if !c.atEnd && test c.current.kind then
    modify (State.moveTo c.advance)
    return some c.current
  else return none

/-- Takes the token under the cursor if it is of a kind. -/
def take? (kind : Kind) : Action (Option Token) := takeIf (· == kind)

/-- Moves on by one token, and gives the token then behind the cursor. -/
def advance : Action Token := do
  modify fun s => s.moveTo s.cursor.advance
  return (← get).cursor.previous

/-- Takes a token of a kind, which has to come next. -/
def expect (kind : Kind) (message : String) : Action Token := do
  match ← take? kind with
  | some t => return t
  | none => failHere .token message

/-- Passes line ends. -/
def skipLines : Action Unit := modify fun s => s.moveTo s.cursor.skipLines

/-- Passes a terminator, and tells whether there was one. -/
def passTerminator : Action Bool := do
  let s ← get
  match s.cursor.passTerminator? s.depth with
  | some c =>
    set (s.moveTo c)
    return true
  | none => return false

/-- Passes a terminator, which has to come next. -/
def requireTerminator (message : String) : Action Unit := do
  if ← passTerminator then return
  else failHere .terminator message

/-- Moves on after an error to where reading can go on. -/
def resume : Action Unit := modify fun s =>
  let c := s.cursor.resume s.depth
  (s.moveTo c).note (.resumed c.current)

/-- One more than the number of tokens ahead: no more than so many tokens can be taken. -/
def tokensLeft : Action Nat := do return (← get).cursor.ahead.length + 1

end LoxFront.Parse
