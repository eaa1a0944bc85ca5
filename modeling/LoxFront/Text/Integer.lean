import LoxFront.Text.Blank
import LoxFront.Text.DecimalDigit

/-!
# Reading integers

An integer is written with an optional sign and decimal digits of any script.  A single underscore
may stand between two digits, and blanks may stand around the whole.
-/

namespace LoxFront.Text

/-- The blanks that may surround an integer: all but the information separators. -/
def isMargin (c : Char) : Bool :=
  isBlank c && !(0x1c ≤ c.toNat && c.toNat ≤ 0x1f)

/-- The values of the digits of a text in which a single underscore may follow a digit if another
digit comes next. -/
def digitValues? : List Char → Option (List Nat)
  | [] => some []
  | '_' :: c :: rest => do return (← digitValue? c) :: (← digitValues? rest)
  | c :: rest => do return (← digitValue? c) :: (← digitValues? rest)

/-- The greatest number of digits of an integer that is read. -/
def longestInteger : Nat := 4300

/-- Reads the digits of an integer: at least one, the first of them not an underscore. -/
def natural? (cs : List Char) : Option Nat := do
  guard (cs.head? ≠ some '_')
  let values ← digitValues? cs
  guard (values ≠ [] ∧ values.length ≤ longestInteger)
  return values.foldl (fun n v => 10 * n + v) 0

/-- Reads an integer. -/
def integer? (s : String) : Option Int :=
  match trim isMargin s.toList with
  | '-' :: rest => (natural? rest).map fun n => -(n : Int)
  | '+' :: rest => (natural? rest).map fun n => (n : Int)
  | cs => (natural? cs).map fun n => (n : Int)

end LoxFront.Text
