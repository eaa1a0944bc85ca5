import LoxFront.Proofs.Decimal.Canonical
import Mathlib.Algebra.Order.Field.Power
import Mathlib.Data.Rat.Cast.Order
import Mathlib.Tactic.FieldSimp
import Mathlib.Tactic.Linarith
import Mathlib.Tactic.NormNum
import Mathlib.Tactic.Ring

/-!
# Rounding keeps the order

The number nearest to a quotient depends on nothing but the value of the quotient (`nearest_congr`).
A quotient that is a number already is that number (`nearest_exact`), and of two quotients the lower
one is not rounded to a greater number (`nearest_mono`).

Both follow from the steps of rounding: the exponent of a quotient does not get less when the quotient
grows (`exponentOf_mono`), and at the same exponent neither does the mantissa (`roundHalfEven_mono`).
-/

namespace LoxFront.Binary64

variable {num den num' den' : Nat} {e : Int}

/-! ### Rounding to an integer -/

/-- What it takes to be rounded up to a number: to be beyond the middle in front of it, or at the middle
if the number is even. -/
theorem succ_le_roundHalfEven_iff (hden : 0 < den) (k : Nat) :
    k + 1 ≤ roundHalfEven num den ↔
      (2 * k + 1) * den < 2 * num ∨ (2 * k + 1) * den = 2 * num ∧ k % 2 = 1 := by
  have hdiv := Nat.div_add_mod num den
  have hmod := Nat.mod_lt num hden
  simp only [roundHalfEven]
  generalize num / den = q at hdiv ⊢
  generalize num % den = r at hdiv hmod ⊢
  have hexpand : ∀ j, (2 * j + 1) * den = 2 * (den * j) + den := fun j => by ring
  rw [hexpand]
  rcases Nat.lt_trichotomy k q with h | rfl | h
  · -- the quotient is beyond `k`
    obtain ⟨j, rfl⟩ : ∃ j, q = k + 1 + j := ⟨q - k - 1, by omega⟩
    have hprod : den * (k + 1 + j) = den * k + den + den * j := by ring
    split_ifs <;> omega
  · split_ifs <;> omega
  · obtain ⟨j, rfl⟩ : ∃ j, k = q + 1 + j := ⟨k - q - 1, by omega⟩
    have hprod : den * (q + 1 + j) = den * q + den + den * j := by ring
    split_ifs <;> omega

theorem roundHalfEven_mono (hden : 0 < den) (hden' : 0 < den') (h : num * den' ≤ num' * den) :
    roundHalfEven num den ≤ roundHalfEven num' den' := by
  cases hk : roundHalfEven num den with
  | zero => exact Nat.zero_le _
  | succ k =>
    have hle : 2 * num * den' ≤ 2 * num' * den := by
      rw [Nat.mul_assoc, Nat.mul_assoc]
      exact Nat.mul_le_mul_left 2 h
    rw [succ_le_roundHalfEven_iff hden']
    rcases (succ_le_roundHalfEven_iff hden k).1 (Nat.le_of_eq hk.symm) with hlt | ⟨heq, hodd⟩
    · left
      refine Nat.lt_of_mul_lt_mul_right (a := den) ?_
      calc (2 * k + 1) * den' * den = (2 * k + 1) * den * den' := by ring
        _ < 2 * num * den' := Nat.mul_lt_mul_of_pos_right hlt hden'
        _ ≤ 2 * num' * den := hle
    · rw [← heq] at hle
      have hbound : (2 * k + 1) * den' ≤ 2 * num' := by
        refine Nat.le_of_mul_le_mul_right ?_ hden
        calc (2 * k + 1) * den' * den = (2 * k + 1) * den * den' := by ring
          _ ≤ 2 * num' * den := hle
      rcases Nat.lt_or_eq_of_le hbound with hlt | heq'
      · exact .inl hlt
      · exact .inr ⟨heq', hodd⟩

theorem roundHalfEven_mul (hden : 0 < den) (m : Nat) : roundHalfEven (m * den) den = m := by
  simp [roundHalfEven, Nat.mul_div_left m hden, hden]

/-! ### Exponents -/

/-- A lower quotient is below the same powers of two. -/
theorem Below.of_le (hden : 0 < den) (h : num * den' ≤ num' * den)
    (hb : Below num' den' e) : Below num den e := by
  refine Nat.lt_of_mul_lt_mul_right (a := den') ?_
  calc num * powerDen e * den' = num * den' * powerDen e := by ring
    _ ≤ num' * den * powerDen e := Nat.mul_le_mul_right _ h
    _ = num' * powerDen e * den := by ring
    _ < den' * powerNum e * den := Nat.mul_lt_mul_of_pos_right hb hden
    _ = den * powerNum e * den' := by ring

/-- There is only one exponent at which a quotient has a mantissa in the canonical range. -/
theorem exponentOf_eq (hnum : num ≠ 0) (hden : den ≠ 0) (hle : leastExponent ≤ e)
    (hhigh : Below num den (e + (53 : Nat)))
    (hlow : ¬ Below num den (e + (52 : Nat)) ∨ e = leastExponent) : exponentOf num den = e := by
  obtain ⟨hle', hhigh', hlow'⟩ := below_exponentOf hnum hden
  generalize exponentOf num den = e' at hle' hhigh' hlow' ⊢
  rcases Int.lt_trichotomy e e' with h | h | h
  · exact absurd (hhigh.mono (by omega)) (hlow'.resolve_right (by omega))
  · exact h.symm
  · exact absurd (hhigh'.mono (by omega)) (hlow.resolve_right (by omega))

theorem exponentOf_mono (hnum : num ≠ 0) (hnum' : num' ≠ 0) (hden : 0 < den) (hden' : 0 < den')
    (h : num * den' ≤ num' * den) : exponentOf num den ≤ exponentOf num' den' := by
  obtain ⟨hle, -, hlow⟩ := below_exponentOf hnum (Nat.ne_of_gt hden)
  obtain ⟨hle', hhigh', -⟩ := below_exponentOf hnum' (Nat.ne_of_gt hden')
  by_contra hlt
  exact absurd ((hhigh'.of_le hden h).mono (by omega)) (hlow.resolve_right (by omega))

/-! ### Rounding to a number -/

theorem powerNum_pos (e : Int) : 0 < powerNum e := Nat.two_pow_pos _

theorem powerDen_pos (e : Int) : 0 < powerDen e := Nat.two_pow_pos _

/-- Quotients in units of a power of two are in the same order. -/
theorem scaled_le (e : Int) (h : num * den' ≤ num' * den) :
    num * powerDen e * (den' * powerNum e) ≤ num' * powerDen e * (den * powerNum e) := by
  calc num * powerDen e * (den' * powerNum e) = num * den' * (powerDen e * powerNum e) := by ring
    _ ≤ num' * den * (powerDen e * powerNum e) := Nat.mul_le_mul_right _ h
    _ = num' * powerDen e * (den * powerNum e) := by ring

/-- The mantissa of a quotient. -/
theorem mantissa_bounds (hnum : num ≠ 0) (hden : 0 < den) :
    let e := exponentOf num den
    let m := roundHalfEven (num * powerDen e) (den * powerNum e)
    m ≤ 2 ^ 53 ∧ (2 ^ 52 ≤ m ∨ e = leastExponent) := by
  intro e m
  obtain ⟨-, hhigh, hlow⟩ := below_exponentOf hnum (Nat.ne_of_gt hden)
  rw [below_add] at hhigh
  rw [below_add, Nat.not_lt] at hlow
  exact ⟨roundHalfEven_le hhigh,
    hlow.imp_left (le_roundHalfEven (Nat.mul_pos hden (powerNum_pos _)))⟩

/-- **The nearest number depends only on the value of the quotient.** -/
theorem nearest_congr (negative : Bool) (hden : 0 < den) (hden' : 0 < den')
    (h : num * den' = num' * den) : nearest negative num den = nearest negative num' den' := by
  by_cases hnum : num = 0
  · have hnum' : num' = 0 := by
      rw [hnum, Nat.zero_mul] at h
      exact (Nat.mul_eq_zero.1 h.symm).resolve_right (Nat.ne_of_gt hden)
    rw [nearest, nearest, if_pos hnum, if_pos hnum']
  have hnum' : num' ≠ 0 := by
    rintro rfl
    rw [Nat.zero_mul] at h
    exact (Nat.mul_eq_zero.1 h).elim hnum (Nat.ne_of_gt hden')
  have he : exponentOf num den = exponentOf num' den' :=
    Int.le_antisymm (exponentOf_mono hnum hnum' hden hden' (Nat.le_of_eq h))
      (exponentOf_mono hnum' hnum hden' hden (Nat.le_of_eq h.symm))
  have hpos := Nat.mul_pos hden (powerNum_pos (exponentOf num' den'))
  have hpos' := Nat.mul_pos hden' (powerNum_pos (exponentOf num' den'))
  have hm := Nat.le_antisymm (roundHalfEven_mono hpos hpos' (scaled_le _ (Nat.le_of_eq h)))
    (roundHalfEven_mono hpos' hpos (scaled_le _ (Nat.le_of_eq h.symm)))
  simp only [nearest, hnum, hnum', ↓reduceIte, he, hm]

/-- **A quotient that is a number is rounded to that number.** -/
theorem nearest_exact {m : Nat} (hx : (finite false m e).Canonical false)
    (hgreatest : e ≤ greatestExponent) (hden : 0 < den)
    (h : num * powerDen e = m * (den * powerNum e)) : nearest false num den = finite false m e := by
  obtain ⟨-, hm, hleast, hlow⟩ := hx
  have hpos := Nat.mul_pos hden (powerNum_pos e)
  by_cases hnum : num = 0
  · have hzero : m = 0 := by
      rw [hnum, Nat.zero_mul] at h
      exact (Nat.mul_eq_zero.1 h.symm).resolve_right (Nat.ne_of_gt hpos)
    have he : e = leastExponent := hlow.resolve_left (by omega)
    rw [nearest, if_pos hnum, hzero, he]
  have he : exponentOf num den = e := by
    refine exponentOf_eq hnum (Nat.ne_of_gt hden) hleast ?_ (hlow.imp_left fun hbig => ?_)
    · rw [below_add, h]
      exact Nat.mul_lt_mul_of_pos_right hm hpos
    · rw [below_add, h, Nat.not_lt]
      exact Nat.mul_le_mul_right _ hbig
  simp only [nearest, hnum, ↓reduceIte, he, h, roundHalfEven_mul hpos, ofMantissa, natPow_eq,
    Nat.ne_of_lt hm, Int.not_lt.2 hgreatest]

theorem units_finite (m : Nat) (e : Int) :
    (finite false m e).units = some ((m * 2 ^ (e - leastExponent).toNat : Nat) : Int) := by
  simp only [units, Bool.false_eq_true, ↓reduceIte, Nat.cast_mul]
  rfl

/-- The value of a mantissa with an exponent, unless it is too great. -/
theorem units_ofMantissa {m : Nat} (he : leastExponent ≤ e) :
    (ofMantissa false m e).units =
      if greatestExponent < e ∨ m = 2 ^ 53 ∧ greatestExponent < e + 1 then none
      else some ((m * 2 ^ (e - leastExponent).toNat : Nat) : Int) := by
  by_cases hcarry : m = 2 ^ 53
  · -- the carried mantissa is half as great, at the next exponent
    have hexp : (e + 1 - leastExponent).toNat = (e - leastExponent).toNat + 1 := by omega
    have hsize : 2 ^ 52 * 2 ^ (e + 1 - leastExponent).toNat = m * 2 ^ (e - leastExponent).toNat := by
      rw [hexp, hcarry, ← Nat.pow_add, ← Nat.pow_add]
      congr 1
      omega
    have hover : (greatestExponent < e ∨ m = 2 ^ 53 ∧ greatestExponent < e + 1) ↔
        greatestExponent < e + 1 := by omega
    rw [← hsize, if_congr hover rfl rfl]
    simp only [ofMantissa, natPow_eq, hcarry, ↓reduceIte]
    split_ifs
    · rfl
    · exact units_finite _ _
  · have hover : (greatestExponent < e ∨ m = 2 ^ 53 ∧ greatestExponent < e + 1) ↔
        greatestExponent < e := by omega
    rw [if_congr hover rfl rfl]
    simp only [ofMantissa, natPow_eq, hcarry, ↓reduceIte]
    split_ifs
    · rfl
    · exact units_finite _ _

/-- A mantissa of 53 bits at a lower exponent is not greater than one of 53 bits at a higher one. -/
theorem ofMantissa_mono {m m' : Nat} {e' n' : Int} (hm : m ≤ 2 ^ 53) (hleast : leastExponent ≤ e)
    (he : e ≤ e') (hsame : e = e' → m ≤ m') (hlow : e < e' → 2 ^ 52 ≤ m')
    (hm' : m' ≤ 2 ^ 53) (hn' : (ofMantissa false m' e').units = some n') :
    ∃ n, (ofMantissa false m e).units = some n ∧ n ≤ n' := by
  rw [units_ofMantissa (hleast.trans he)] at hn'
  rw [units_ofMantissa hleast]
  split_ifs at hn' with hover
  cases hn'
  rcases Int.lt_or_eq_of_le he with hlt | rfl
  · rw [if_neg (by omega)]
    refine ⟨_, rfl, Int.ofNat_le.2 ?_⟩
    obtain ⟨j, hj⟩ := Int.le.dest (Int.add_one_le_of_lt hlt)
    have hexp : (e' - leastExponent).toNat = (e - leastExponent).toNat + (1 + j) := by omega
    calc m * 2 ^ (e - leastExponent).toNat ≤ 2 ^ 53 * 2 ^ (e - leastExponent).toNat :=
          Nat.mul_le_mul_right _ hm
      _ ≤ 2 ^ 52 * 2 ^ (e' - leastExponent).toNat := by
          rw [← Nat.pow_add, ← Nat.pow_add]
          exact Nat.pow_le_pow_right (by omega) (by omega)
      _ ≤ m' * 2 ^ (e' - leastExponent).toNat := Nat.mul_le_mul_right _ (hlow hlt)
  · have hle := hsame rfl
    rw [if_neg (by omega)]
    exact ⟨_, rfl, Int.ofNat_le.2 (Nat.mul_le_mul_right _ hle)⟩

theorem units_nonneg {x : Binary64} (hx : x.Canonical false) {n : Int} (hn : x.units = some n) :
    0 ≤ n := by
  cases x with
  | infinite _ => cases hn
  | nan => cases hn
  | finite s m e =>
    obtain ⟨rfl, -⟩ := hx
    simp only [units, Bool.false_eq_true, ↓reduceIte, Option.some.injEq] at hn
    rw [← hn]
    exact Int.mul_nonneg (by omega) (by omega)

/-- **The order is kept.**  What is not greater than a quotient with a finite number is rounded to a
finite number that is not greater. -/
theorem nearest_mono (hden : 0 < den) (hden' : 0 < den') (h : num * den' ≤ num' * den) {n' : Int}
    (hn' : (nearest false num' den').units = some n') :
    ∃ n, (nearest false num den).units = some n ∧ n ≤ n' := by
  by_cases hnum : num = 0
  · refine ⟨0, ?_, units_nonneg (nearest_canonical false num' (Nat.ne_of_gt hden')) hn'⟩
    rw [nearest, if_pos hnum]
    simp [units]
  have hnum' : num' ≠ 0 := by
    rintro rfl
    rw [Nat.zero_mul, Nat.le_zero, Nat.mul_eq_zero] at h
    exact h.elim hnum (Nat.ne_of_gt hden')
  obtain ⟨hle, -⟩ := below_exponentOf hnum (Nat.ne_of_gt hden)
  obtain ⟨hm, -⟩ := mantissa_bounds hnum hden
  obtain ⟨hm', hlow'⟩ := mantissa_bounds hnum' hden'
  have hmono := exponentOf_mono hnum hnum' hden hden' h
  simp only [nearest, hnum, hnum', ↓reduceIte] at hn' ⊢
  refine ofMantissa_mono hm hle hmono (fun heq => ?_) (fun hlt => ?_) hm' hn'
  · rw [← heq]
    exact roundHalfEven_mono (Nat.mul_pos hden (powerNum_pos _)) (Nat.mul_pos hden' (powerNum_pos _))
      (scaled_le _ h)
  · exact hlow'.resolve_right (by omega)

end LoxFront.Binary64
