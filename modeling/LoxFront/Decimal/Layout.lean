import LoxFront.Decimal.Shortest

/-!
# Numbers as text

A number is written with the fewest digits that identify it (`Decimal.shortest`).  Where the point
goes is a matter of `Layout`: near one the digits are written out, far from one the first digit is
followed by the point and the power of ten is given.
`Binary64.ofText?` reads such texts, and other spellings of decimals, back.
-/

namespace LoxFront

/-- Decisions on how a decimal is laid out. -/
structure Layout where
  /-- The least power of ten of the first digit for which all digits are written out. -/
  plainFrom : Int
  /-- The first power of ten beyond the range where all digits are written out. -/
  plainBelow : Int
  /-- The least number of digits of a power of ten. -/
  exponentWidth : Nat

/-- The layout of numbers in listings: written out from `0.0001` to below `10 ^ 16`, and powers of
ten of at least two digits. -/
def Layout.listing : Layout := ⟨-4, 16, 2⟩

namespace Decimal

/-- Digits with zeros in front up to a width. -/
def padded (width : Nat) (n : Nat) : String :=
  let digits := Nat.toDigits 10 n
  String.ofList (List.replicate (width - digits.length) '0' ++ digits)

/-- The digits of a decimal written out, with a point and at least one digit on either side. -/
def plainText (digits : List Char) (exponent : Int) : List Char :=
  if 0 ≤ exponent then digits ++ List.replicate exponent.toNat '0' ++ ['.', '0']
  else
    let places := (-exponent).toNat
    let digits := List.replicate (places + 1 - digits.length) '0' ++ digits
    digits.take (digits.length - places) ++ '.' :: digits.drop (digits.length - places)

/-- The first digit, the other digits after a point, and the power of ten of the first digit. -/
def scientificText (layout : Layout) (digits : List Char) (power : Int) : List Char :=
  let fraction := match digits.drop 1 with
    | [] => []
    | rest => '.' :: rest
  let sign := if power < 0 then '-' else '+'
  digits.take 1 ++ fraction ++ 'e' :: sign :: (padded layout.exponentWidth power.natAbs).toList

/-- The text of a decimal under a layout. -/
def text (layout : Layout) (d : Decimal) : List Char :=
  let digits := Nat.toDigits 10 d.digits
  let power := d.exponent + digits.length - 1
  if layout.plainFrom ≤ power ∧ power < layout.plainBelow then plainText digits d.exponent
  else scientificText layout digits power

end Decimal

namespace Binary64

/-- The text of a number: its shortest digits, a minus sign also for negative zero, and the words
`inf` and `nan`. -/
def text : Binary64 → String
  | .nan => "nan"
  | .infinite negative => if negative then "-inf" else "inf"
  | .finite negative m e =>
    let size := if m = 0 then "0.0" else String.ofList ((Decimal.shortest m e).text .listing)
    if negative then "-" ++ size else size

/-! ### Reading -/

/-- The number written by a run of decimal digits. -/
def digitsValue (cs : List Char) : Nat :=
  cs.foldl (fun n c => 10 * n + (c.toNat - '0'.toNat)) 0

/-- The number written by digits before and after a point. -/
def ofDigits (whole fraction : List Char) : Binary64 :=
  ofDecimal false ⟨digitsValue (whole ++ fraction), -(fraction.length : Int)⟩

/-- Splits a sign off a text; the flag tells whether it is a minus. -/
def splitSign : List Char → Bool × List Char
  | '-' :: rest => (true, rest)
  | '+' :: rest => (false, rest)
  | cs => (false, cs)

/-- The power of ten behind an exponent mark: a sign and at least one digit, and nothing else. -/
def exponent? : List Char → Option Int
  | [] => some 0
  | mark :: rest =>
    let (negative, digits) := splitSign rest
    if (mark = 'e' ∨ mark = 'E') ∧ digits ≠ [] ∧ digits.all Char.isDigit then
      let size : Int := digitsValue digits
      some (if negative then -size else size)
    else none

/-- Reads a decimal with an optional point and an optional power of ten. -/
def unsigned? (negative : Bool) (cs : List Char) : Option Binary64 :=
  let whole := cs.takeWhile Char.isDigit
  let rest := cs.dropWhile Char.isDigit
  let (fraction, rest) := match rest with
    | '.' :: rest => (rest.takeWhile Char.isDigit, rest.dropWhile Char.isDigit)
    | rest => ([], rest)
  if whole ++ fraction = [] then none
  else (exponent? rest).map fun power =>
    ofDecimal negative ⟨digitsValue (whole ++ fraction), power - fraction.length⟩

/-- Reads the text of a number: a signed decimal, or a word for infinity or for no number. -/
def ofText? (s : String) : Option Binary64 :=
  let (negative, size) := splitSign s.toList
  let word := String.ofList (size.map Char.toLower)
  if word = "inf" ∨ word = "infinity" then some (.infinite negative)
  else if word = "nan" then some .nan
  else unsigned? negative size

end Binary64

end LoxFront
