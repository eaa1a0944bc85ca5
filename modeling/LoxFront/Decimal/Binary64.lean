/-!
# Binary floating point as exact numbers

A `Binary64` is a double-precision number written down exactly: a sign, a mantissa and a power of
two, or one of the special values.  Decimals are read by `Binary64.ofDecimal`, which rounds the
exact rational to the nearest double and sends a tie to the even mantissa.  All arithmetic is on
natural numbers and integers, so every value here can be computed by the kernel.

* `Binary64.nearest` rounds a quotient of natural numbers;
* `Binary64.ofDecimal` reads `digits · 10 ^ exponent`;
* `Binary64.units` is the exact value of a finite number in units of the least subnormal;
* `Binary64.whole?` is the value of a number without a fractional part.
-/

namespace LoxFront

/-- The decimal number `digits · 10 ^ exponent`. -/
structure Decimal where
  digits : Nat
  exponent : Int
deriving DecidableEq, Repr

/-- A double-precision number.  A finite one is `± mantissa · 2 ^ exponent`, in the canonical form:
the mantissa is below `2 ^ 53`, and it is at least `2 ^ 52` unless the exponent is `-1074`. -/
inductive Binary64 where
  | finite (negative : Bool) (mantissa : Nat) (exponent : Int)
  | infinite (negative : Bool)
  | nan
deriving DecidableEq, Repr

namespace Binary64

/-! ### Rounding -/

/-- The integer nearest to `num / den`; of two equally near ones the even one. -/
def roundHalfEven (num den : Nat) : Nat :=
  let quotient := num / den
  let remainder := num % den
  if 2 * remainder < den then quotient
  else if den < 2 * remainder then quotient + 1
  else if quotient % 2 = 0 then quotient
  else quotient + 1

/-- The exponent of the least subnormal number. -/
def leastExponent : Int := -1074

/-- The exponent of the greatest finite number. -/
def greatestExponent : Int := 971

/-- The power of two `2 ^ e` as a quotient: numerator `2 ^ e` if `e` is not negative. -/
def powerNum (e : Int) : Nat := Nat.pow 2 e.toNat

/-- The denominator of the power of two `2 ^ e`. -/
def powerDen (e : Int) : Nat := Nat.pow 2 (-e).toNat

/-- The exponent at which `num / den` has a mantissa of 53 bits, or the least one there is. -/
def exponentOf (num den : Nat) : Int :=
  let e : Int := num.log2 - den.log2 - 52
  let e := if num * powerDen e < Nat.pow 2 52 * (den * powerNum e) then e - 1 else e
  max leastExponent e

/-- The canonical number `± mantissa · 2 ^ exponent`, for a mantissa of at most `2 ^ 53`. -/
def ofMantissa (negative : Bool) (mantissa : Nat) (exponent : Int) : Binary64 :=
  let carried := mantissa = Nat.pow 2 53
  let mantissa := if carried then Nat.pow 2 52 else mantissa
  let exponent := if carried then exponent + 1 else exponent
  if greatestExponent < exponent then .infinite negative
  else .finite negative mantissa exponent

/-- The number nearest to `± num / den`, ties to the even mantissa. -/
def nearest (negative : Bool) (num den : Nat) : Binary64 :=
  if num = 0 then .finite negative 0 leastExponent
  else
    let e := exponentOf num den
    ofMantissa negative (roundHalfEven (num * powerDen e) (den * powerNum e)) e

/-- The number nearest to a decimal, ties to the even mantissa.  Decimals that are certainly above
every finite number or below half the least one are decided without computing their value. -/
def ofDecimal (negative : Bool) (d : Decimal) : Binary64 :=
  if d.digits = 0 then .finite negative 0 leastExponent
  else if 400 < d.exponent then .infinite negative
  else if d.digits.log2 + 3 * d.exponent < -1080 then .finite negative 0 leastExponent
  else if 0 ≤ d.exponent then nearest negative (d.digits * Nat.pow 10 d.exponent.toNat) 1
  else nearest negative d.digits (Nat.pow 10 (-d.exponent).toNat)

/-! ### Exact values -/

/-- The value of a finite number in units of `2 ^ -1074`, the spacing of the subnormal numbers;
every finite number is a whole multiple of it. -/
def units : Binary64 → Option Int
  | .finite negative m e =>
    let size : Int := m * Nat.pow 2 (e - leastExponent).toNat
    some (if negative then -size else size)
  | _ => none

/-- The value of a finite number that is an integer. -/
def whole? : Binary64 → Option Int
  | .finite negative m e =>
    if m * powerNum e % powerDen e = 0 then
      let size : Int := m * powerNum e / powerDen e
      some (if negative then -size else size)
    else none
  | _ => none

end Binary64

end LoxFront
