import LoxFront.Decimal.Layout
import LoxFront.Proofs.Decimal.Value
import Mathlib.Data.Nat.Cast.Field

/-!
# Shortest digits are read back

The digits with which a number is written are read as that number (`ofDecimal_shortest`): every digit
string that the search tries is read back before it is taken, and where none is found the exact value
is written.  Neither the zeros at the end nor the place of the point matter, since reading depends on
the value alone.

The power of ten of the first digit decides on the layout.  For a number with a fractional part it
tells just whether the number is below a ten-thousandth (`isPlain_iff`): all such numbers are below
`10 ^ 16`, and reading keeps the order.
-/

namespace LoxFront

open Binary64

/-! ### Finite numbers -/

/-- A finite number without a sign in canonical form. -/
structure Binary64.IsFinite (m : Nat) (e : Int) : Prop where
  canonical : (finite false m e).Canonical false
  exponent_le : e ≤ greatestExponent

/-- One, in units of the least subnormal number. -/
def Binary64.one : Nat := 2 ^ (-leastExponent).toNat

/-- No finite number has a higher exponent than the greatest one. -/
theorem Binary64.exponent_le_of_ofMantissa {negative s : Bool} {m n : Nat} {e e' : Int}
    (h : ofMantissa negative m e = finite s n e') : e' ≤ greatestExponent := by
  simp only [ofMantissa] at h
  split_ifs at h <;> cases h <;> omega

/-- What is read from digits is finite in canonical form, or infinite. -/
theorem Binary64.ofDecimal_isFinite {s : Bool} {d : Decimal} {m : Nat} {e : Int}
    (h : ofDecimal false d = finite s m e) : s = false ∧ IsFinite m e := by
  have hcanonical := ofDecimal_canonical false d
  rw [h] at hcanonical
  obtain ⟨rfl, hm, hleast, hlow⟩ := hcanonical
  refine ⟨rfl, ⟨rfl, hm, hleast, hlow⟩, ?_⟩
  rw [ofDecimal_eq_nearest, nearest] at h
  split_ifs at h
  · cases h
    decide
  · exact exponent_le_of_ofMantissa h

namespace Decimal

variable {d : Decimal} {m : Nat} {e : Int}

/-! ### Runs of digits -/

theorem digitsValue_toDigits (n : Nat) : digitsValue (Nat.toDigits 10 n) = n := by
  rw [digitsValue, ← Nat.ofDigitChars_eq_foldl, Nat.ofDigitChars_ten_toDigits]

/-- Zeros in front do not count. -/
theorem digitsValue_zeros_append (n : Nat) (cs : List Char) :
    digitsValue (List.replicate n '0' ++ cs) = digitsValue cs := by
  rw [digitsValue, ← Nat.ofDigitChars_eq_foldl, Nat.ofDigitChars_append,
    Nat.ofDigitChars_replicate_zero, Nat.mul_zero, Nat.ofDigitChars_eq_foldl, digitsValue]

/-- Zeros behind are powers of ten. -/
theorem digitsValue_append_zeros (cs : List Char) (n : Nat) :
    digitsValue (cs ++ List.replicate n '0') = 10 ^ n * digitsValue cs := by
  rw [digitsValue, ← Nat.ofDigitChars_eq_foldl, Nat.ofDigitChars_append,
    Nat.ofDigitChars_replicate_zero, Nat.ofDigitChars_eq_foldl, digitsValue]

/-! ### Reading back -/

theorem value_cons (n : Nat) (x : Int) : value ⟨n * 10, x⟩ = value ⟨n, x + 1⟩ := by
  simp only [value, Nat.cast_mul]
  rw [zpow_add₀ (by norm_num)]
  norm_num
  ring

theorem value_dropZeros (fuel : Nat) (d : Decimal) : (dropZeros fuel d).value = d.value := by
  induction fuel generalizing d with
  | zero => rfl
  | succ fuel ih =>
    rw [dropZeros]
    split_ifs with h
    · have hdigits : d.digits / 10 * 10 = d.digits := Nat.div_mul_cancel (Nat.dvd_of_mod_eq_zero h.2)
      rw [ih, ← value_cons, hdigits]
    · rfl

theorem value_exact (m : Nat) (e : Int) : (exact m e).value = m * 2 ^ e := by
  unfold exact
  split_ifs with h
  · obtain ⟨k, rfl⟩ := Int.eq_ofNat_of_zero_le h
    simp [value]
  · obtain ⟨k, hk⟩ := Int.eq_ofNat_of_zero_le (show 0 ≤ -e by omega)
    obtain rfl : e = -k := by omega
    simp only [value, natPow_eq, Int.neg_neg, Int.toNat_natCast, Nat.cast_mul, Nat.cast_pow, zpow_neg,
      zpow_natCast]
    have hten : (10 : ℚ) ^ k = 2 ^ k * 5 ^ k := by rw [← mul_pow]; norm_num
    rw [hten]
    field_simp
    norm_num

/-- What is found on a grid is read as the number that is wanted. -/
theorem ofDecimal_of_onGrid {wanted : Binary64} {num den low : Nat} {x : Int}
    (h : onGrid wanted num den low x = some d) : ofDecimal false d = wanted := by
  simp only [onGrid] at h
  split_ifs at h with hlow hhigh
  · cases h
    exact eq_of_beq hlow.1.2
  · cases h
    exact eq_of_beq hhigh

/-- **The shortest digits of a number are read as that number.** -/
theorem ofDecimal_shortest (hx : IsFinite m e) : ofDecimal false (shortest m e) = finite false m e := by
  rw [shortest, ofDecimal_congr false (value_dropZeros _ _)]
  cases hfound : (List.range 17).findSome? fun n => ofLength m e (n + 1) with
  | none => exact ofDecimal_exact hx.canonical hx.exponent_le (value_exact m e)
  | some d =>
    obtain ⟨n, -, hn⟩ := List.exists_of_findSome?_eq_some hfound
    exact ofDecimal_of_onGrid hn

/-! ### The first digit -/

/-- The power of ten of the first digit. -/
def power (d : Decimal) : Int := d.exponent + (Nat.toDigits 10 d.digits).length - 1

/-- All digits are written out. -/
def IsPlain (layout : Layout) (d : Decimal) : Prop :=
  layout.plainFrom ≤ d.power ∧ d.power < layout.plainBelow

theorem text_of_isPlain {layout : Layout} (h : IsPlain layout d) :
    d.text layout = plainText (Nat.toDigits 10 d.digits) d.exponent := if_pos h

theorem text_of_not_isPlain {layout : Layout} (h : ¬ IsPlain layout d) :
    d.text layout = scientificText layout (Nat.toDigits 10 d.digits) d.power := if_neg h

/-- A decimal is between two powers of ten. -/
theorem power_bounds (hd : d.digits ≠ 0) : 10 ^ d.power ≤ d.value ∧ d.value < 10 ^ (d.power + 1) := by
  obtain ⟨n, x⟩ := d
  dsimp only at hd
  have hpos := Nat.length_toDigits_pos (b := 10) (n := n)
  obtain ⟨k, hk⟩ : ∃ k, (Nat.toDigits 10 n).length = k + 1 := ⟨_, (Nat.succ_pred_eq_of_pos hpos).symm⟩
  have hhigh : n < 10 ^ (k + 1) :=
    (Nat.length_toDigits_le_iff (by omega) (by omega)).1 (Nat.le_of_eq hk)
  have hlow : 10 ^ k ≤ n := by
    cases k with
    | zero => exact Nat.pos_of_ne_zero hd
    | succ k =>
      rw [← Nat.not_lt, ← Nat.length_toDigits_le_iff (b := 10) (by omega) (by omega), hk]
      omega
  have hpower : power ⟨n, x⟩ = k + x := by
    rw [power, hk]
    push_cast
    ring
  have hten : (0 : ℚ) < 10 ^ x := zpow_pos (by norm_num) x
  have hsucc : (k + x + 1 : ℤ) = ((k + 1 : ℕ) : ℤ) + x := by push_cast; ring
  rw [hpower, hsucc, zpow_add₀ (by norm_num), zpow_add₀ (by norm_num), zpow_natCast, zpow_natCast, value]
  constructor
  · exact mul_le_mul_of_nonneg_right (by exact_mod_cast hlow) (le_of_lt hten)
  · exact mul_lt_mul_of_pos_right (by exact_mod_cast hhigh) hten

/-! ### Whole numbers -/

/-- A number without a fractional part is a natural number. -/
theorem whole?_eq_some {n : Int} (h : (finite false m e).whole? = some n) :
    ∃ k : Nat, n = k ∧ (k : ℚ) = m * 2 ^ e := by
  simp only [whole?, Bool.false_eq_true, ↓reduceIte] at h
  split_ifs at h with hmod
  cases h
  refine ⟨m * powerNum e / powerDen e, by push_cast; rfl, ?_⟩
  rw [Nat.cast_div (Nat.dvd_of_mod_eq_zero hmod) (Nat.cast_ne_zero.2 (Nat.ne_of_gt (powerDen_pos e))),
    two_zpow_eq, Nat.cast_mul, mul_div_assoc]

/-! ### Numbers with a fractional part -/

/-- The units of a number are its value. -/
theorem units_value (he : leastExponent ≤ e) {n : Int} (hn : (finite false m e).units = some n) :
    (n : ℚ) = m * 2 ^ e * one := by
  rw [units_finite] at hn
  cases hn
  have hexp : e + (-leastExponent).toNat = (e - leastExponent).toNat := by
    have hleast : leastExponent = -1074 := rfl
    omega
  have htwo : (2 : ℚ) ^ e * one = 2 ^ (e - leastExponent).toNat := by
    rw [one, Nat.cast_pow, Nat.cast_two, ← zpow_natCast, ← zpow_natCast,
      ← zpow_add₀ (by norm_num), hexp]
  rw [mul_assoc, htwo]
  push_cast
  rfl

theorem one_pos : (0 : ℚ) < one := Nat.cast_pos.2 (Nat.two_pow_pos _)

/-- What is read from a lower decimal is not greater. -/
theorem value_le_of_le {d' : Decimal} {m' : Nat} {e' : Int} (h : d.value ≤ d'.value)
    (hd : ofDecimal false d = finite false m e) (hd' : ofDecimal false d' = finite false m' e') :
    (m : ℚ) * 2 ^ e ≤ m' * 2 ^ e' := by
  obtain ⟨-, ⟨-, -, he, -⟩, -⟩ := ofDecimal_isFinite hd
  obtain ⟨-, ⟨-, -, he', -⟩, -⟩ := ofDecimal_isFinite hd'
  obtain ⟨n', hn'⟩ : ∃ n', (finite false m' e').units = some n' := ⟨_, units_finite m' e'⟩
  obtain ⟨n, hn, hle⟩ := ofDecimal_mono h (hd' ▸ hn')
  rw [hd] at hn
  refine le_of_mul_le_mul_right ?_ one_pos
  rw [← units_value he hn, ← units_value he' hn']
  exact_mod_cast hle

theorem value_one (x : Int) : value ⟨1, x⟩ = 10 ^ x := by rw [value, Nat.cast_one, one_mul]

/-- Finite numbers of the same value are the same. -/
theorem eq_of_value_eq {m' : Nat} {e' : Int} (hx : IsFinite m e) (hx' : IsFinite m' e')
    (h : (m : ℚ) * 2 ^ e = m' * 2 ^ e') : m = m' ∧ e = e' := by
  have heq := ofDecimal_exact hx.canonical hx.exponent_le (value_exact m e)
  rw [ofDecimal_exact hx'.canonical hx'.exponent_le ((value_exact m e).trans h)] at heq
  cases heq
  exact ⟨rfl, rfl⟩

theorem exponent_neg_of_whole?_eq_none (h : (finite false m e).whole? = none) : e < 0 := by
  by_contra hle
  have hden : powerDen e = 1 := by rw [powerDen, Int.toNat_of_nonpos (by omega)]
  simp [whole?, hden, Nat.mod_one] at h

theorem digits_shortest_ne_zero (hx : IsFinite m e) (hm : m ≠ 0) : (shortest m e).digits ≠ 0 := by
  intro hzero
  have hread := ofDecimal_shortest hx
  rw [ofDecimal, if_pos hzero] at hread
  cases hread
  exact hm rfl

theorem ne_zero_of_whole?_eq_none (h : (finite false m e).whole? = none) : m ≠ 0 := by
  rintro rfl
  simp [whole?] at h

/-- A number with a fractional part is below `10 ^ 16`. -/
theorem power_shortest_lt (hx : IsFinite m e) (hwhole : (finite false m e).whole? = none)
    (hlow : 10 ^ (shortest m e).power ≤ (shortest m e).value) : (shortest m e).power < 16 := by
  by_contra hge
  have hten : ofDecimal false ⟨1, 16⟩ = finite false 5000000000000000 1 := by decide +kernel
  have hvalue : value ⟨1, 16⟩ ≤ (shortest m e).value := by
    rw [value_one]
    exact (zpow_le_zpow_right₀ (by norm_num) (by omega)).trans hlow
  have hle := value_le_of_le hvalue hten (ofDecimal_shortest hx)
  obtain ⟨-, hm, -⟩ := hx.canonical
  have hm' : (m : ℚ) ≤ 2 ^ 53 := by exact_mod_cast Nat.le_of_lt hm
  have hneg := exponent_neg_of_whole?_eq_none hwhole
  have he : (2 : ℚ) ^ e ≤ 2 ^ (-1 : ℤ) := zpow_le_zpow_right₀ (by norm_num) (by omega)
  have hhigh : (m : ℚ) * 2 ^ e ≤ 2 ^ 53 * 2 ^ (-1 : ℤ) :=
    mul_le_mul hm' he (zpow_nonneg (by norm_num) e) (by norm_num)
  norm_num at hle hhigh
  linarith

/-- **All digits of a number with a fractional part are written out just if it is at least a
ten-thousandth.** -/
theorem isPlain_iff (hx : IsFinite m e) (hwhole : (finite false m e).whole? = none) {n : Int}
    (hn : (finite false m e).units = some n) :
    IsPlain .listing (shortest m e) ↔ (one : Int) ≤ 10000 * n := by
  have hdigits := digits_shortest_ne_zero hx (ne_zero_of_whole?_eq_none hwhole)
  obtain ⟨hlow, hhigh⟩ := power_bounds hdigits
  have hread := ofDecimal_shortest hx
  -- a ten-thousandth as a number
  have hten : ofDecimal false ⟨1, -4⟩ = finite false 7378697629483821 (-66) := by decide +kernel
  have hsize : (one : Int) ≤ 10000 * n ↔ (1 : ℚ) ≤ 10000 * (m * 2 ^ e) := by
    obtain ⟨-, -, he, -⟩ := hx.canonical
    rw [← mul_le_mul_iff_left₀ one_pos, mul_assoc, ← units_value he hn, one_mul]
    exact_mod_cast Iff.rfl
  rw [hsize]
  constructor
  · rintro ⟨hfrom, -⟩
    have hle : value ⟨1, -4⟩ ≤ (shortest m e).value := by
      rw [value_one]
      exact (zpow_le_zpow_right₀ (by norm_num) hfrom).trans hlow
    have hsmall := value_le_of_le hle hten hread
    norm_num at hsmall
    linarith
  · intro hone
    refine ⟨?_, power_shortest_lt hx hwhole hlow⟩
    by_contra hbelow
    -- otherwise it is a ten-thousandth, which is written out
    have hle : (shortest m e).value ≤ value ⟨1, -4⟩ := by
      rw [value_one]
      refine (le_of_lt hhigh).trans (zpow_le_zpow_right₀ (by norm_num) ?_)
      have hfrom : Layout.listing.plainFrom = -4 := rfl
      omega
    have hge : value ⟨1, -4⟩ ≤ (exact m e).value := by
      rw [value_one, value_exact]
      norm_num
      linarith
    have hexact := ofDecimal_exact hx.canonical hx.exponent_le (value_exact m e)
    obtain ⟨rfl, rfl⟩ := eq_of_value_eq hx (ofDecimal_isFinite hten).2
      (le_antisymm (value_le_of_le hle hread hten) (value_le_of_le hge hten hexact))
    have hshortest : shortest 7378697629483821 (-66) = ⟨1, -4⟩ := by decide +kernel
    rw [hshortest] at hbelow
    exact hbelow (by decide)

end Decimal

end LoxFront
