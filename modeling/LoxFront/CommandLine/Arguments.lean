import LoxFront.Text.Integer

/-!
# Command line arguments

The command takes one input and a few options, in any order.  The value of an option follows as the
next argument or behind an equals sign; of options that are given again the last one counts.  Two
hyphens end the options.  `Request.ofArguments` makes of the arguments what is asked for.
-/

namespace LoxFront.CommandLine

/-- Why arguments are refused. -/
inductive UsageError where
  | unknownOption (name : String)
  /-- The option needs a value, and none follows. -/
  | missingValue (name : String)
  /-- The option takes no value. -/
  | unwantedValue (name : String)
  | invalidNumber (text : String)
  | missingInput
  | unwantedArgument (text : String)
  /-- The input does not exist. -/
  | noSuchFile (path : String)
  /-- The input is a directory. -/
  | isDirectory (path : String)
deriving DecidableEq, Repr

/-- The message about arguments that are refused. -/
def UsageError.message : UsageError → String
  | unknownOption name => "no such option: " ++ name
  | missingValue name => "option " ++ name ++ " needs a value"
  | unwantedValue name => "option " ++ name ++ " takes no value"
  | invalidNumber text => "not a number of errors: " ++ text
  | missingInput => "no input given"
  | unwantedArgument text => "unexpected argument: " ++ text
  | noSuchFile path => "no such file: " ++ path
  | isDirectory path => "is a directory: " ++ path

/-- Questions about the command itself. -/
inductive Inquiry where
  | version
  | help
deriving DecidableEq, Repr

/-- Arguments sorted into options and others. -/
structure Arguments where
  forms : Bool := false
  verbose : Bool := false
  /-- The value of the option for the error budget, as given. -/
  maxErrors : Option String := none
  /-- The first question about the command. -/
  inquiry : Option Inquiry := none
  /-- The arguments that are no options. -/
  inputs : List String := []
deriving DecidableEq, Repr

namespace Arguments

/-- The effect of an option without a value. -/
def setFlag? (name : String) (a : Arguments) : Option Arguments :=
  if name = "--sexpr" then some { a with forms := true }
  else if name = "--verbose" ∨ name = "-v" then some { a with verbose := true }
  else if name = "--version" then some { a with inquiry := a.inquiry.or (some .version) }
  else if name = "--help" then some { a with inquiry := a.inquiry.or (some .help) }
  else none

/-- The name of the option with the error budget. -/
def maxErrorsOption : String := "--max-errors"

/-- Sets the options named by single letters behind one hyphen. -/
def setLetters (a : Arguments) : List Char → Except UsageError Arguments
  | [] => .ok a
  | letter :: rest =>
    match a.setFlag? (String.ofList ['-', letter]) with
    | some a => a.setLetters rest
    | none => .error (.unknownOption (String.ofList ['-', letter]))

/-- Splits an option at its first equals sign. -/
def splitOption (cs : List Char) : String × Option String :=
  let name := String.ofList (cs.takeWhile (· ≠ '='))
  match cs.dropWhile (· ≠ '=') with
  | [] => (name, none)
  | _ :: value => (name, some (String.ofList value))

/-- Sets an option other than the error budget. -/
def setOption (a : Arguments) (cs : List Char) : Except UsageError Arguments :=
  match cs with
  | '-' :: '-' :: _ =>
    let (name, value) := splitOption cs
    match a.setFlag? name, value with
    | some a, none => .ok a
    | some _, some _ => .error (.unwantedValue name)
    | none, _ => .error (.unknownOption name)
  | _ => a.setLetters (cs.drop 1)

/-- Sorts arguments, after those that have been sorted already. -/
def sort (a : Arguments) : List String → Except UsageError Arguments
  | [] => .ok a
  | arg :: rest =>
    if arg = "--" then .ok { a with inputs := a.inputs ++ rest }
    else
      let (name, value) := splitOption arg.toList
      if name = maxErrorsOption then
        match value, rest with
        | some v, rest => sort { a with maxErrors := some v } rest
        | none, v :: rest => sort { a with maxErrors := some v } rest
        | none, [] => .error (.missingValue name)
      else
        match arg.toList with
        | '-' :: c :: cs =>
          match a.setOption ('-' :: c :: cs) with
          | .ok a => sort a rest
          | .error e => .error e
        | _ => sort { a with inputs := a.inputs ++ [arg] } rest

end Arguments

/-- What the command is asked to do with an input. -/
structure Job where
  /-- The path of the input; a hyphen stands for the standard input. -/
  input : String
  /-- Whether the prefix forms are wanted instead of the listing. -/
  forms : Bool
  verbose : Bool
  /-- The error budget, if one is given. -/
  maxErrors : Option Nat
deriving DecidableEq, Repr

/-- What the command is asked for. -/
inductive Request where
  | inquiry (i : Inquiry)
  | job (j : Job)
deriving DecidableEq, Repr

namespace Request

/-- The error budget that a text gives. -/
def maxErrors? : Option String → Except UsageError (Option Nat)
  | none => .ok none
  | some text =>
    match Text.integer? text with
    | some (.ofNat n) => .ok (some n)
    | _ => .error (.invalidNumber text)

/-- What the arguments ask for. -/
def ofArguments (args : List String) : Except UsageError Request := do
  let a ← Arguments.sort {} args
  match a.inquiry with
  | some i => return .inquiry i
  | none =>
    match a.inputs with
    | [] => throw .missingInput
    | [input] => return .job ⟨input, a.forms, a.verbose, ← maxErrors? a.maxErrors⟩
    | _ :: extra :: _ => throw (.unwantedArgument extra)

end Request

end LoxFront.CommandLine
