import LoxFront.Proofs.Decimal.Rounding

/-!
# Decimals and their values

A decimal stands for a rational number (`Decimal.value`), and reading it rounds that number
(`ofDecimal_eq_nearest`): the decimals that are decided without computing their value are decided
rightly.  So decimals of the same value are read as the same number (`ofDecimal_congr`), the order of
values is kept (`ofDecimal_mono`), and a value that is a number is read as that number
(`ofDecimal_exact`).
-/

namespace LoxFront

namespace Decimal

/-! ### Values -/

/-- The value of a decimal. -/
def value (d : Decimal) : ℚ := d.digits * 10 ^ d.exponent

/-- The numerator of the value of a decimal. -/
def num (d : Decimal) : Nat := d.digits * 10 ^ d.exponent.toNat

/-- The denominator of the value of a decimal. -/
def den (d : Decimal) : Nat := 10 ^ (-d.exponent).toNat

variable {d d' : Decimal}

theorem den_pos (d : Decimal) : 0 < d.den := Nat.pow_pos (by omega)

/-- A power with an integer exponent as a quotient. -/
theorem zpow_eq_div (b : Nat) (hb : b ≠ 0) (x : Int) :
    (b : ℚ) ^ x = ((b ^ x.toNat : Nat) : ℚ) / ((b ^ (-x).toNat : Nat) : ℚ) := by
  have hb' : (b : ℚ) ≠ 0 := Nat.cast_ne_zero.2 hb
  rw [Nat.cast_pow, Nat.cast_pow, ← zpow_natCast, ← zpow_natCast, ← zpow_sub₀ hb']
  congr 1
  omega

theorem value_eq (d : Decimal) : d.value = (d.num : ℚ) / d.den := by
  have hten := zpow_eq_div 10 (by omega) d.exponent
  rw [value, num, den, Nat.cast_mul, mul_div_assoc, ← hten]
  norm_num

theorem value_le_iff : d.value ≤ d'.value ↔ d.num * d'.den ≤ d'.num * d.den := by
  have hd : (0 : ℚ) < d.den := Nat.cast_pos.2 d.den_pos
  have hd' : (0 : ℚ) < d'.den := Nat.cast_pos.2 d'.den_pos
  rw [value_eq, value_eq, div_le_div_iff₀ hd hd']
  norm_cast

end Decimal

namespace Binary64

open Decimal

variable {d d' : Decimal} {e : Int}

theorem two_zpow_eq (e : Int) : (2 : ℚ) ^ e = (powerNum e : ℚ) / powerDen e :=
  zpow_eq_div 2 (by omega) e

/-! ### Reading is rounding -/

/-- A quotient beyond the greatest finite number is infinite. -/
theorem nearest_of_ge (negative : Bool) {num k : Nat} (hk : 1024 ≤ k) (h : 2 ^ k ≤ num) :
    nearest negative num 1 = .infinite negative := by
  have hnum : num ≠ 0 := Nat.ne_of_gt (Nat.lt_of_lt_of_le (Nat.two_pow_pos k) h)
  have he : greatestExponent < exponentOf num 1 := by
    obtain ⟨-, hhigh, -⟩ := below_exponentOf hnum Nat.one_ne_zero
    by_contra hle
    have hgreatest : greatestExponent = 971 := rfl
    have hbelow : Below num 1 k := hhigh.mono (by omega)
    obtain ⟨hpn, hpd⟩ := powerNum_natCast k
    rw [Below, hpn, hpd, Nat.mul_one, Nat.one_mul] at hbelow
    omega
  simp only [nearest, hnum, ↓reduceIte, ofMantissa]
  split_ifs
  · rfl
  · omega
  · rfl

/-- A quotient below half of the least number is zero. -/
theorem nearest_of_lt (negative : Bool) {num den : Nat}
    (h : 2 * (num * powerDen leastExponent) < den) :
    nearest negative num den = .finite negative 0 leastExponent := by
  by_cases hnum : num = 0
  · rw [nearest, if_pos hnum]
  have hone : powerNum leastExponent = 1 := rfl
  have he : exponentOf num den = leastExponent := by
    refine exponentOf_eq hnum (by omega) (Int.le_refl _) ?_ (.inr rfl)
    rw [below_add, hone]
    omega
  have hround : roundHalfEven (num * powerDen leastExponent) den = 0 := by
    have hlt : num * powerDen leastExponent < den := by omega
    rw [roundHalfEven, Nat.div_eq_of_lt hlt, Nat.mod_eq_of_lt hlt, if_pos h]
  have hzero : 0 ≠ Nat.pow 2 53 := Nat.ne_of_lt (Nat.two_pow_pos 53)
  simp only [nearest, hnum, ↓reduceIte, he, hone, Nat.mul_one, hround]
  simp [ofMantissa, hzero, leastExponent, greatestExponent]

/-- **Reading a decimal is rounding its value**, also where that is not computed. -/
theorem ofDecimal_eq_nearest (negative : Bool) (d : Decimal) :
    ofDecimal negative d = nearest negative d.num d.den := by
  obtain ⟨n, x⟩ := d
  simp only [ofDecimal, num, den, natPow_eq]
  split_ifs with hzero hgreat hsmall hexp
  · rw [hzero, Nat.zero_mul, nearest, if_pos rfl]
  · -- a power of ten is more than the same power of eight
    have hden : (-x).toNat = 0 := by omega
    rw [hden, Nat.pow_zero, nearest_of_ge negative (k := 3 * x.toNat) (by omega)]
    calc 2 ^ (3 * x.toNat) = 8 ^ x.toNat := Nat.pow_mul 2 3 _
      _ ≤ 10 ^ x.toNat := Nat.pow_le_pow_left (by omega) _
      _ ≤ n * 10 ^ x.toNat := Nat.le_mul_of_pos_left _ (Nat.pos_of_ne_zero hzero)
  · have hnum : x.toNat = 0 := by omega
    have hpd : ∀ e, powerDen e = 2 ^ (-e).toNat := fun _ => rfl
    have hleast : (-leastExponent).toNat = 1074 := rfl
    rw [hnum, Nat.pow_zero, Nat.mul_one, nearest_of_lt negative]
    rw [hpd]
    calc 2 * (n * 2 ^ (-leastExponent).toNat) = n * 2 ^ ((-leastExponent).toNat + 1) := by
          rw [Nat.pow_succ]
          ring
      _ < 2 ^ (n.log2 + 1) * 2 ^ ((-leastExponent).toNat + 1) :=
          Nat.mul_lt_mul_of_pos_right Nat.lt_log2_self (Nat.two_pow_pos _)
      _ ≤ 2 ^ (3 * (-x).toNat) := by
          rw [← Nat.pow_add]
          exact Nat.pow_le_pow_right (by omega) (by omega)
      _ = 8 ^ (-x).toNat := Nat.pow_mul 2 3 _
      _ ≤ 10 ^ (-x).toNat := Nat.pow_le_pow_left (by omega) _
  · have hden : (-x).toNat = 0 := by omega
    rw [hden, Nat.pow_zero]
  · have hnum : x.toNat = 0 := by omega
    rw [hnum, Nat.pow_zero, Nat.mul_one]

/-- **Decimals of the same value are read as the same number.** -/
theorem ofDecimal_congr (negative : Bool) (h : d.value = d'.value) :
    ofDecimal negative d = ofDecimal negative d' := by
  rw [ofDecimal_eq_nearest, ofDecimal_eq_nearest]
  exact nearest_congr negative d.den_pos d'.den_pos
    (Nat.le_antisymm (value_le_iff.1 (le_of_eq h)) (value_le_iff.1 (le_of_eq h.symm)))

/-- **A lower decimal is not read as a greater number.** -/
theorem ofDecimal_mono (h : d.value ≤ d'.value) {n' : Int}
    (hn' : (ofDecimal false d').units = some n') :
    ∃ n, (ofDecimal false d).units = some n ∧ n ≤ n' := by
  rw [ofDecimal_eq_nearest] at hn' ⊢
  exact nearest_mono d.den_pos d'.den_pos (value_le_iff.1 h) hn'

/-- **A decimal whose value is a number is read as that number.** -/
theorem ofDecimal_exact {m : Nat} (hx : (finite false m e).Canonical false)
    (hgreatest : e ≤ greatestExponent) (h : d.value = m * 2 ^ e) :
    ofDecimal false d = finite false m e := by
  rw [ofDecimal_eq_nearest]
  refine nearest_exact hx hgreatest d.den_pos ?_
  have hden : (d.den : ℚ) ≠ 0 := Nat.cast_ne_zero.2 (Nat.ne_of_gt d.den_pos)
  have hpd : (powerDen e : ℚ) ≠ 0 := Nat.cast_ne_zero.2 (Nat.ne_of_gt (powerDen_pos e))
  rw [value_eq, two_zpow_eq, mul_div_assoc', div_eq_div_iff hden hpd] at h
  have hnat : d.num * powerDen e = m * powerNum e * d.den := by exact_mod_cast h
  rw [hnat]
  ring

end Binary64

end LoxFront
