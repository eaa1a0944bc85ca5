import LoxFront.Literal

/-!
# Tokens

The words of the language.  A newline is a token of its own, since it may end a statement, and a
stream of tokens ends with an end-of-input token.
-/

namespace LoxFront

/-- The reserved words. -/
inductive Keyword where
  | kAnd
  | kClass
  | kElse
  | kFalse
  | kFun
  | kFor
  | kIf
  | kNil
  | kOr
  | kPrint
  | kReturn
  | kSuper
  | kThis
  | kTrue
  | kVar
  | kWhile
deriving DecidableEq, Repr

namespace Keyword

/-- All reserved words. -/
def all : List Keyword :=
  [kAnd, kClass, kElse, kFalse, kFun, kFor, kIf, kNil, kOr, kPrint, kReturn, kSuper, kThis, kTrue,
    kVar, kWhile]

theorem mem_all (k : Keyword) : k ∈ all := by cases k <;> decide

/-- The word in a program. -/
def spelling : Keyword → String
  | kAnd => "and"
  | kClass => "class"
  | kElse => "else"
  | kFalse => "false"
  | kFun => "fun"
  | kFor => "for"
  | kIf => "if"
  | kNil => "nil"
  | kOr => "or"
  | kPrint => "print"
  | kReturn => "return"
  | kSuper => "super"
  | kThis => "this"
  | kTrue => "true"
  | kVar => "var"
  | kWhile => "while"

/-- The reserved word with a spelling. -/
def ofSpelling? (s : String) : Option Keyword := all.find? fun k => k.spelling == s

/-- Whether a statement begins with the word.  Recovery from an error resumes in front of these. -/
def startsStatement : Keyword → Bool
  | kClass | kFun | kVar | kFor | kIf | kWhile | kPrint | kReturn => true
  | _ => false

end Keyword

/-- The kinds of tokens. -/
inductive Kind where
  | leftParen
  | rightParen
  | leftBrace
  | rightBrace
  | comma
  | dot
  | minus
  | plus
  | semicolon
  | slash
  | star
  | bang
  | bangEqual
  | equal
  | equalEqual
  | greater
  | greaterEqual
  | less
  | lessEqual
  | identifier
  | string
  | number
  | keyword (word : Keyword)
  | endOfLine
  | endOfInput
deriving DecidableEq, Repr

namespace Kind

/-- The name of a kind in diagnoses. -/
def name : Kind → String
  | leftParen => "LEFT_PAREN"
  | rightParen => "RIGHT_PAREN"
  | leftBrace => "LEFT_BRACE"
  | rightBrace => "RIGHT_BRACE"
  | comma => "COMMA"
  | dot => "DOT"
  | minus => "MINUS"
  | plus => "PLUS"
  | semicolon => "SEMICOLON"
  | slash => "SLASH"
  | star => "STAR"
  | bang => "BANG"
  | bangEqual => "BANG_EQUAL"
  | equal => "EQUAL"
  | equalEqual => "EQUAL_EQUAL"
  | greater => "GREATER"
  | greaterEqual => "GREATER_EQUAL"
  | less => "LESS"
  | lessEqual => "LESS_EQUAL"
  | identifier => "IDENTIFIER"
  | string => "STRING"
  | number => "NUMBER"
  | keyword word => word.spelling.toUpper
  | endOfLine => "EOL"
  | endOfInput => "EOF"

/-- All kinds. -/
def all : List Kind :=
  [leftParen, rightParen, leftBrace, rightBrace, comma, dot, minus, plus, semicolon, slash, star,
    bang, bangEqual, equal, equalEqual, greater, greaterEqual, less, lessEqual, identifier, string,
    number] ++ Keyword.all.map keyword ++ [endOfLine, endOfInput]

/-- The kind with a name. -/
def ofName? (s : String) : Option Kind := all.find? fun k => k.name == s

/-- Whether a token of this kind begins a statement. -/
def startsStatement : Kind → Bool
  | keyword word => word.startsStatement
  | _ => false

end Kind

/-- A place in a source: its name, the line and the column.  Lines and columns count from one; a
column of zero is not known. -/
structure Location where
  file : String
  line : Int
  column : Int
deriving DecidableEq, Repr

/-- A location as the front of a message. -/
def Location.text (l : Location) : String :=
  l.file ++ ":" ++ toString l.line ++ ":" ++ toString l.column

/-- A token: its kind, its text in the source, the value of a number or string, and the line and
column where it begins. -/
structure Token where
  kind : Kind
  lexeme : String
  literal : Literal
  line : Int
  column : Int
deriving DecidableEq, Repr

namespace Token

/-- Where a token of a source begins. -/
def location (file : String) (t : Token) : Location := ⟨file, t.line, t.column⟩

/-- A token in a diagnosis; tokens without a value show none. -/
def description (t : Token) : String :=
  let literal := if t.literal = .nil then "" else ", " ++ t.literal.description
  "Token(" ++ t.kind.name ++ ", " ++ Text.quoted t.lexeme ++ literal ++ ", " ++ toString t.line ++
    ":" ++ toString t.column ++ ")"

/-- Equality of tokens up to equality of their values. -/
def agrees (a b : Token) : Bool :=
  a.kind == b.kind && a.lexeme == b.lexeme && a.literal.agrees b.literal && a.line == b.line &&
    a.column == b.column

end Token

end LoxFront
