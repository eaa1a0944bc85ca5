import LoxFront.Token.Basic

/-!
# Moving through tokens

A `Cursor` is a place in a stream of tokens: the token under it, those passed and those ahead.  It
moves forward only, and never past an end-of-input token.

Statements end at a terminator (`Cursor.passTerminator?`).  After an error the cursor moves on to
a place where a statement may begin (`Cursor.resume`).
-/

namespace LoxFront

/-- A token and those behind it end with an end-of-input token. -/
def Ends : Token → List Token → Prop
  | t, [] => t.kind = .endOfInput
  | _, t :: rest => Ends t rest

instance Ends.instDecidable : (t : Token) → (rest : List Token) → Decidable (Ends t rest)
  | t, [] => inferInstanceAs (Decidable (t.kind = .endOfInput))
  | _, t :: rest => Ends.instDecidable t rest

/-- A place in a stream of tokens, which ends with an end-of-input token. -/
structure Cursor where
  /-- The tokens behind the cursor, the nearest first. -/
  passed : List Token
  /-- The token under the cursor. -/
  current : Token
  /-- The tokens ahead, the nearest first. -/
  ahead : List Token
  ends : Ends current ahead
deriving DecidableEq, Repr

namespace Cursor

/-- The start of a stream; a stream has to end with an end-of-input token. -/
def start? (tokens : List Token) : Option Cursor :=
  match tokens with
  | [] => none
  | t :: rest => if h : Ends t rest then some ⟨[], t, rest, h⟩ else none

/-- The number of tokens behind the cursor. -/
def index (c : Cursor) : Nat := c.passed.length

/-- Whether the cursor is at the end of the input. -/
def atEnd (c : Cursor) : Bool := c.current.kind == .endOfInput

/-- Whether the token under the cursor is of a kind.  The end of the input never counts. -/
def sees (c : Cursor) (kind : Kind) : Bool := !c.atEnd && c.current.kind == kind

/-- The cursor after the token under it; the end of the input is not passed. -/
def advance : Cursor → Cursor
  | ⟨passed, current, [], ends⟩ => ⟨passed, current, [], ends⟩
  | ⟨passed, current, t :: rest, ends⟩ =>
    if current.kind = .endOfInput then ⟨passed, current, t :: rest, ends⟩
    else ⟨current :: passed, t, rest, ends⟩

/-- The token behind the cursor; behind the first token comes the last one. -/
def previous (c : Cursor) : Token :=
  match c.passed with
  | t :: _ => t
  | [] => c.ahead.getLastD c.current

/-! ### Terminators -/

/-- Passes end-of-line tokens. -/
def skipLinesFrom (passed : List Token) (current : Token) :
    (ahead : List Token) → Ends current ahead → Cursor
  | [], ends => ⟨passed, current, [], ends⟩
  | t :: rest, ends =>
    if current.kind = .endOfLine then skipLinesFrom (current :: passed) t rest ends
    else ⟨passed, current, t :: rest, ends⟩

@[inherit_doc skipLinesFrom]
def skipLines (c : Cursor) : Cursor := skipLinesFrom c.passed c.current c.ahead c.ends

/-- The cursor after a terminator, if there is one: the end of the input, line ends, or a semicolon
and the line ends behind it.  Inside a block its closing brace is a terminator too, and is left for
the block. -/
def passTerminator? (depth : Int) (c : Cursor) : Option Cursor :=
  match c.current.kind with
  | .endOfInput => some c
  | .endOfLine => some c.skipLines
  | .semicolon => some c.advance.skipLines
  | .rightBrace => if 0 < depth then some c else none
  | _ => none

/-! ### Recovery -/

/-- Passes tokens up to one that begins a statement, or else past the next terminator. -/
def seekFrom (depth : Int) (passed : List Token) (current : Token) :
    (ahead : List Token) → Ends current ahead → Cursor
  | [], ends => ⟨passed, current, [], ends⟩
  | t :: rest, ends =>
    if current.kind.startsStatement then ⟨passed, current, t :: rest, ends⟩
    else match passTerminator? depth ⟨passed, current, t :: rest, ends⟩ with
      | some c => c
      | none => seekFrom depth (current :: passed) t rest ends

@[inherit_doc seekFrom]
def seek (depth : Int) (c : Cursor) : Cursor := seekFrom depth c.passed c.current c.ahead c.ends

/-- The place where reading goes on after an error: past a terminator that is under the cursor, or
else, beyond the offending token, where a statement begins or a terminator ends one. -/
def resume (depth : Int) (c : Cursor) : Cursor :=
  match c.passTerminator? depth with
  | some c => c
  | none => c.advance.seek depth

end Cursor

end LoxFront
