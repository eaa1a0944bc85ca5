/-!
# Terminal sequences

Sequences that steer a terminal have no place in a file.  `plain` removes the common form of them:
the escape character, an opening bracket, parameters and a letter.
-/

namespace LoxFront.Text

/-- Whether a character may stand among the parameters of a terminal sequence. -/
def isParameter (c : Char) : Bool := c = ';' || c = '?' || c.isDigit

/-- The number of characters of the terminal sequence behind an escape character. -/
def sequenceLength? : List Char → Option Nat
  | '[' :: rest =>
    match rest.dropWhile isParameter with
    | c :: _ => if c.isAlpha then some ((rest.takeWhile isParameter).length + 2) else none
    | [] => none
  | _ => none

/-- Removes the next `skip` characters, and the terminal sequences of what follows. -/
def plainFrom : Nat → List Char → List Char
  | _, [] => []
  | skip + 1, _ :: rest => plainFrom skip rest
  | 0, c :: rest =>
    match (if c = '\x1b' then sequenceLength? rest else none) with
    | some n => plainFrom n rest
    | none => c :: plainFrom 0 rest

/-- A text without its terminal sequences. -/
def plain (s : String) : String := String.ofList (plainFrom 0 s.toList)

end LoxFront.Text
