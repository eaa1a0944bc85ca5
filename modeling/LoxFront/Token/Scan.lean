import LoxFront.Token.Basic

/-!
# From text to tokens

A text is read from left to right: blanks and comments are passed over, and the longest lexeme that
starts at the next character becomes a token.  Newlines are lexemes.  Reading stops at the first
character with which no lexeme starts (`LexicalError`).

* `Lexeme.at?` is the lexical grammar: the kind and the length of the lexeme in front;
* `Reader` is a place in a text, with its line and column;
* `Scan.ofText` reads a whole text, keeping the tokens in front of an error;
* `Token.scan` is the list of tokens of a text without an error.
-/

namespace LoxFront

/-! ### Lexemes -/

/-- Why no lexeme starts at a place. -/
inductive LexicalFault where
  | unterminatedString
  | invalidCharacter (c : Char)
deriving DecidableEq, Repr

namespace Lexeme

/-- Whether a name may start with a character: a letter or an underscore. -/
def isNameStart (c : Char) : Bool := c.isAlpha || c = '_'

/-- Whether a name may go on with a character: a letter, a digit or an underscore. -/
def isNamePart (c : Char) : Bool := c.isAlphanum || c = '_'

/-- The kind of a whole word: a keyword, or else a name. -/
def wordKind (word : List Char) : Kind :=
  match Keyword.ofSpelling? (String.ofList word) with
  | some k => .keyword k
  | none => .identifier

/-- The digits behind a decimal point in front of a text; none, if no digit follows a point. -/
def fraction : List Char → List Char
  | '.' :: rest => rest.takeWhile Char.isDigit
  | _ => []

/-- The length of a number with which a text begins: digits, and a point if digits follow it. -/
def numberLength (cs : List Char) : Nat :=
  let whole := cs.takeWhile Char.isDigit
  let fraction := fraction (cs.drop whole.length)
  if fraction = [] then whole.length else whole.length + 1 + fraction.length

/-- The kind of a character that is a lexeme by itself. -/
def single? : Char → Option Kind
  | '(' => some .leftParen
  | ')' => some .rightParen
  | '\x7b' => some .leftBrace
  | '\x7d' => some .rightBrace
  | ',' => some .comma
  | '.' => some .dot
  | '-' => some .minus
  | '+' => some .plus
  | ';' => some .semicolon
  | '/' => some .slash
  | '*' => some .star
  | '!' => some .bang
  | '=' => some .equal
  | '<' => some .less
  | '>' => some .greater
  | _ => none

/-- The kind of a character together with an equals sign behind it. -/
def withEqual? : Char → Option Kind
  | '!' => some .bangEqual
  | '=' => some .equalEqual
  | '<' => some .lessEqual
  | '>' => some .greaterEqual
  | _ => none

/-- The operator or punctuation mark that starts with a character, and its length. -/
def mark? (c : Char) (rest : List Char) : Option (Kind × Nat) :=
  match (if rest.head? = some '=' then withEqual? c else none) with
  | some kind => some (kind, 2)
  | none => (single? c).map (·, 1)

/-- The lexeme that starts with a character: its kind and its length. -/
def at? (c : Char) (rest : List Char) : Except LexicalFault (Kind × Nat) :=
  if c = '\n' then .ok (.endOfLine, 1)
  else if isNameStart c then
    let word := c :: rest.takeWhile isNamePart
    .ok (wordKind word, word.length)
  else if c.isDigit then .ok (.number, numberLength (c :: rest))
  else if c = '"' then
    let inside := rest.takeWhile (· ≠ '"')
    if inside.length < rest.length then .ok (.string, inside.length + 2)
    else .error .unterminatedString
  else match mark? c rest with
    | some found => .ok found
    | none => .error (.invalidCharacter c)

/-- The value of a lexeme: the number that its digits write, or the text between its quotes. -/
def literal (kind : Kind) (lexeme : List Char) : Literal :=
  match kind with
  | .number =>
    let whole := lexeme.takeWhile Char.isDigit
    .number (Binary64.ofDigits whole (fraction (lexeme.drop whole.length)))
  | .string => .text (String.ofList (lexeme.drop 1).dropLast)
  | _ => .nil

end Lexeme

/-! ### Reading -/

/-- A place in a text: the text that follows, the line and column of its first character, and the
text from the start of the line on. -/
structure Reader where
  rest : List Char
  line : Nat
  column : Nat
  lineText : List Char
deriving DecidableEq, Repr

namespace Reader

/-- The start of a text. -/
def start (text : List Char) : Reader := ⟨text, 1, 1, text⟩

/-- The place behind the next character. -/
def next (r : Reader) : Reader :=
  match r.rest with
  | [] => r
  | c :: rest =>
    if c = '\n' then ⟨rest, r.line + 1, 1, rest⟩
    else ⟨rest, r.line, r.column + 1, r.lineText⟩

/-- The place behind a number of characters. -/
def skip : Nat → Reader → Reader
  | 0, r => r
  | n + 1, r => skip n r.next

/-- The line at this place. -/
def currentLine (r : Reader) : List Char := r.lineText.takeWhile (· ≠ '\n')

end Reader

/-- The number of characters in front of the first lexeme, newline or end of a text: spaces, tabs,
carriage returns, and a comment up to the end of its line. -/
def blankLength : List Char → Nat
  | '/' :: '/' :: rest => (rest.takeWhile (· ≠ '\n')).length + 2
  | c :: rest => if c = ' ' ∨ c = '\t' ∨ c = '\r' then blankLength rest + 1 else 0
  | [] => 0

/-- A place in a text where no lexeme starts, and the line it is on. -/
structure LexicalError where
  fault : LexicalFault
  line : Nat
  column : Nat
  lineText : List Char
deriving DecidableEq, Repr

/-- What reading a text gives: the tokens, and the error at which reading stopped.  Without an
error the last token is the end of the input. -/
structure Scan where
  tokens : List Token
  error : Option LexicalError
deriving DecidableEq, Repr

namespace Scan

/-- Reads on from a place.  Each token takes at least one character, so the fuel need not exceed
the number of characters by more than one. -/
def fromReader : Nat → Reader → Scan
  | 0, _ => ⟨[], none⟩
  | fuel + 1, r =>
    let r := r.skip (blankLength r.rest)
    match r.rest with
    | [] => ⟨[⟨.endOfInput, "", .nil, r.line, r.column⟩], none⟩
    | c :: rest =>
      match Lexeme.at? c rest with
      | .error fault => ⟨[], some ⟨fault, r.line, r.column, r.currentLine⟩⟩
      | .ok (kind, length) =>
        let lexeme := (c :: rest).take length
        let token : Token :=
          ⟨kind, String.ofList lexeme, Lexeme.literal kind lexeme, r.line, r.column⟩
        let others := fromReader fuel (r.skip length)
        ⟨token :: others.tokens, others.error⟩

/-- Reads a text. -/
def ofText (text : List Char) : Scan := fromReader (text.length + 1) (.start text)

end Scan

/-- The tokens of a text, the end of the input last. -/
def Token.scan (text : List Char) : Except LexicalError (List Token) :=
  let result := Scan.ofText text
  match result.error with
  | some e => .error e
  | none => .ok result.tokens

end LoxFront
