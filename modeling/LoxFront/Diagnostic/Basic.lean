import LoxFront.Token.Scan

/-!
# Diagnostics

A diagnostic says what is wrong with a program, where, and how it may be mended.  Its cause is
found in the text or at a token; a cause at a token is a `Mismatch` between the tokens and a rule of
the grammar.

The text of a diagnostic has a header line with the location, the source line with a caret under
the column, and a hint, so far as these are known (`Diagnostic.text`).
-/

namespace LoxFront

/-! ### Causes -/

/-- The rules of the grammar that tokens may fail to fit. -/
inductive Rule where
  /-- A rule that has no name of its own. -/
  | other
  /-- A certain token has to come next. -/
  | token
  /-- A statement has to end. -/
  | terminator
  /-- An expression has to begin. -/
  | expression
  /-- Only a variable can be assigned to. -/
  | assignment
deriving DecidableEq, Repr

/-- A token that does not fit a rule, and the message about it. -/
structure Mismatch where
  rule : Rule
  message : String
  token : Token
deriving DecidableEq, Repr

namespace Mismatch

/-- An equals sign behind what is not a variable. -/
def invalidAssignment (equals : Token) : Mismatch :=
  ⟨.assignment, "Invalid assignment target.", equals⟩

/-- Where the token stands, in words. -/
def place (m : Mismatch) : String :=
  match m.token.kind with
  | .endOfInput => "at end"
  | .endOfLine => "at end of line"
  | _ => "at '" ++ m.token.lexeme ++ "'"

end Mismatch

/-- What is wrong. -/
inductive Cause where
  /-- A fault of no particular sort. -/
  | general (message : String)
  | unterminatedString
  /-- A character, or another text, that starts no token. -/
  | invalidCharacter (text : String)
  | mismatch (m : Mismatch)
deriving DecidableEq, Repr

namespace Cause

/-- The message about a cause. -/
def message : Cause → String
  | general message => message
  | unterminatedString => "Unterminated string."
  | invalidCharacter text => "Unexpected character '" ++ text ++ "'."
  | mismatch m => m.message

/-- The message about a cause, with the place of the token if there is one. -/
def description : Cause → String
  | mismatch m => m.message ++ " (" ++ m.place ++ ")"
  | cause => cause.message

/-- The hint that goes with a cause, given the hint of a diagnostic: some causes always have the
same, and an invalid character has none. -/
def hint (given : Option String) : Cause → Option String
  | unterminatedString => some "add closing '\"' to complete the string"
  | invalidCharacter _ => none
  | mismatch ⟨.terminator, _, _⟩ => some "end the statement with ';' or a newline"
  | mismatch ⟨.assignment, _, _⟩ =>
    some "only a variable name may appear on the left of '='"
  | general _ | mismatch ⟨.other, _, _⟩ | mismatch ⟨.token, _, _⟩ | mismatch ⟨.expression, _, _⟩ =>
    given

/-- The cause of an error in reading a text. -/
def ofLexicalFault : LexicalFault → Cause
  | .unterminatedString => unterminatedString
  | .invalidCharacter c => invalidCharacter (String.singleton c)

end Cause

/-! ### Diagnostics -/

/-- A cause, its location, a hint and the source line, so far as they are known. -/
structure Diagnostic where
  cause : Cause
  location : Option Location := none
  suggestion : Option String := none
  sourceLine : Option String := none
deriving DecidableEq, Repr

namespace Diagnostic

/-- The message of a diagnostic. -/
def message (d : Diagnostic) : String := d.cause.message

/-- The hint of a diagnostic. -/
def hint (d : Diagnostic) : Option String := d.cause.hint d.suggestion

/-- The first line of a diagnostic. -/
def header (d : Diagnostic) : String :=
  let start := match d.location with
    | some l => l.text ++ ": "
    | none => ""
  start ++ "error: " ++ d.cause.description

/-- The source line, set in by four spaces, and a caret under the column if it is known. -/
def context (d : Diagnostic) : List String :=
  match d.sourceLine, d.location with
  | some line, some l =>
    let caret :=
      if 0 < l.column then [String.ofList (List.replicate (l.column.toNat + 3) ' ') ++ "^"] else []
    ("    " ++ line) :: caret
  | _, _ => []

/-- The line with the hint; an empty hint is not shown. -/
def advice (d : Diagnostic) : List String :=
  match d.hint with
  | none | some "" => []
  | some hint => ["hint: " ++ hint]

/-- The text of a diagnostic. -/
def text (d : Diagnostic) : String := "\n".intercalate (d.header :: d.context ++ d.advice)

end Diagnostic

/-- The diagnostic of an error in reading a text. -/
def LexicalError.diagnostic (file : String) (e : LexicalError) : Diagnostic where
  cause := .ofLexicalFault e.fault
  location := some ⟨file, e.line, e.column⟩
  sourceLine := some (String.ofList e.lineText)

/-- The line with a number; lines count from one. -/
def sourceLine? (lines : List String) (line : Int) : Option String :=
  if 0 < line then lines[(line - 1).toNat]? else none

/-- The diagnostic of a mismatch in a source, given the lines of the source. -/
def Mismatch.diagnostic (file : String) (lines : List String) (m : Mismatch) : Diagnostic where
  cause := .mismatch m
  location := some (m.token.location file)
  sourceLine := sourceLine? lines m.token.line

end LoxFront
