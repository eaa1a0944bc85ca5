import LoxFront.Decimal.Binary64

/-!
# The fewest digits that identify a number

`Decimal.shortest m e` is the decimal with the fewest digits that `Binary64.ofDecimal` reads as
`m · 2 ^ e`, and of those with equally many digits the nearest.  The digits are searched for
directly: for each length, the two multiples of the matching power of ten around the value are
read back, until one of them gives the value again.  Seventeen digits are enough for every double;
should none be found, the exact decimal expansion is used, which always reads back.
-/

namespace LoxFront

namespace Decimal

/-- The number of decimal digits of a positive number. -/
def length (n : Nat) : Nat := (Nat.toDigits 10 n).length

/-- The least `k` with `num / den < 10 ^ k`, for a positive quotient. -/
def magnitude (num den : Nat) : Int :=
  if den ≤ num then length (num / den) else 1 - (length ((den - 1) / num) : Int)

/-- Moves the trailing zeros of the digits into the exponent, at most `fuel` of them. -/
def dropZeros : Nat → Decimal → Decimal
  | 0, d => d
  | fuel + 1, d =>
    if d.digits ≠ 0 ∧ d.digits % 10 = 0 then dropZeros fuel ⟨d.digits / 10, d.exponent + 1⟩ else d

/-- Of the two multiples `low` and `low + 1` of a grid around `num / den`, those that read back as
the wanted number; if both do, the nearer, and the even one of two equally near. -/
def onGrid (wanted : Binary64) (num den low : Nat) (exponent : Int) : Option Decimal :=
  let reads (n : Nat) : Bool := Binary64.ofDecimal false ⟨n, exponent⟩ == wanted
  let lowReads := low ≠ 0 ∧ reads low
  let highReads := reads (low + 1)
  let highNearer :=
    (2 * low + 1) * den < 2 * num ∨ ((2 * low + 1) * den = 2 * num ∧ low % 2 = 1)
  if lowReads ∧ (¬ highReads ∨ ¬ highNearer) then some ⟨low, exponent⟩
  else if highReads then some ⟨low + 1, exponent⟩
  else none

/-- The decimal of `n` digits next to `m · 2 ^ e` that reads back as it. -/
def ofLength (m : Nat) (e : Int) (n : Nat) : Option Decimal :=
  let num := m * Binary64.powerNum e
  let den := Binary64.powerDen e
  let exponent := magnitude num den - n
  let num := num * Nat.pow 10 (-exponent).toNat
  let den := den * Nat.pow 10 exponent.toNat
  onGrid (.finite false m e) num den (num / den) exponent

/-- The exact decimal expansion of `m · 2 ^ e`. -/
def exact (m : Nat) (e : Int) : Decimal :=
  if 0 ≤ e then ⟨m * Nat.pow 2 e.toNat, 0⟩ else ⟨m * Nat.pow 5 (-e).toNat, e⟩

/-- The decimal with the fewest digits that reads back as `m · 2 ^ e`, without trailing zeros. -/
def shortest (m : Nat) (e : Int) : Decimal :=
  let found := (List.range 17).findSome? fun n => ofLength m e (n + 1)
  let d := found.getD (exact m e)
  dropZeros (length d.digits) d

end Decimal

end LoxFront
