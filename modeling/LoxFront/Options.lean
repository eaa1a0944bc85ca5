import LoxFront.Log
import LoxFront.Text.Integer
import LoxFront.Text.Quoted

/-!
# Options

How a program is to be read: under which name, up to how many errors, and whether the gaps that
errors leave stay in the result.  Options come from the caller (`Options.make?`) or from variables of
the environment (`Options.ofVariables`), where a value that makes no sense is passed over with a
warning.
-/

namespace LoxFront

/-- Options for reading a program. -/
structure Options where
  /-- The name of the source in locations. -/
  file : String := "<input>"
  /-- The number of errors after which reading stops; zero for no limit. -/
  maxErrors : Nat := 100
  /-- Whether the gaps left by errors stay in the result. -/
  keepPlaceholders : Bool := true
deriving DecidableEq, Repr

namespace Options

/-- A limit on the errors that is below zero. -/
structure NegativeLimit where
  limit : Int
deriving DecidableEq, Repr

/-- The message about a limit below zero. -/
def NegativeLimit.message (e : NegativeLimit) : String :=
  "max_errors must be >= 0, got " ++ toString e.limit

/-- Options with the given values; what is not given has its usual value. -/
def make? (file : Option String) (maxErrors : Option Int) (keepPlaceholders : Option Bool) :
    Except NegativeLimit Options :=
  let usual : Options := {}
  let limit := maxErrors.getD usual.maxErrors
  if limit < 0 then .error ⟨limit⟩
  else .ok ⟨file.getD usual.file, limit.toNat, keepPlaceholders.getD usual.keepPlaceholders⟩

/-! ### Environment -/

/-- The variable with the name of the source. -/
def fileVariable : String := "LOXPARSE_FILENAME"

/-- The variable with the number of errors after which reading stops. -/
def maxErrorsVariable : String := "LOXPARSE_MAX_ERRORS"

/-- The variable that tells whether gaps stay in the result. -/
def keepPlaceholdersVariable : String := "LOXPARSE_KEEP_PLACEHOLDERS"

/-- The truth value of a word. -/
def flag? (s : String) : Option Bool :=
  let word := String.ofList ((Text.trim Text.isBlank s.toList).map Char.toLower)
  if ["1", "true", "yes", "on"].contains word then some true
  else if ["0", "false", "no", "off"].contains word then some false
  else none

/-- The warning about the value of a variable. -/
def ignored (name value : String) : LogRecord :=
  ⟨.warning, .config, "Ignoring invalid " ++ name ++ "=" ++ Text.quoted value⟩

/-- The number of errors that a text gives. -/
def limit? (s : String) : Option Nat :=
  match Text.integer? s with
  | some (.ofNat n) => some n
  | _ => none

/-- The value of a variable, read by a function; an empty value counts as none, and a value that
cannot be read leaves the usual one and a warning. -/
def reading {α : Type} (lookup : String → Option String) (name : String)
    (read : String → Option α) (usual : α) : α × List LogRecord :=
  match lookup name with
  | none | some "" => (usual, [])
  | some value =>
    match read value with
    | some a => (a, [])
    | none => (usual, [ignored name value])

/-- Options from the variables of an environment, and the warnings about them. -/
def ofVariables (lookup : String → Option String) : Options × List LogRecord :=
  let usual : Options := {}
  let (file, fileLog) := reading lookup fileVariable some usual.file
  let (maxErrors, limitLog) := reading lookup maxErrorsVariable limit? usual.maxErrors
  let (keep, keepLog) := reading lookup keepPlaceholdersVariable flag? usual.keepPlaceholders
  (⟨file, maxErrors, keep⟩, fileLog ++ limitLog ++ keepLog)

end Options

end LoxFront
