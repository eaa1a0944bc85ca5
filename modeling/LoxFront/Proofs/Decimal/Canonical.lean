import LoxFront.Decimal.Layout
import Mathlib.Algebra.Group.Nat.Defs
import Mathlib.Tactic.SplitIfs

/-!
# Numbers that are read are canonical

A number that is read from a decimal has a mantissa of 53 bits, unless its exponent is the least one
(`ofDecimal_canonical`).  So it is known by its value: two such numbers of the same size are the same
(`eq_of_units_eq`).

Quotients are compared with powers of two (`Below`).  The exponent of a quotient is found from the
lengths of its two parts, which give it up to one, and a comparison that decides between the two
(`below_exponentOf`).
-/

namespace LoxFront.Binary64

/-- A number with a sign in canonical form. -/
def Canonical (negative : Bool) : Binary64 → Prop
  | finite s m e => s = negative ∧ m < 2 ^ 53 ∧ leastExponent ≤ e ∧ (2 ^ 52 ≤ m ∨ e = leastExponent)
  | infinite s => s = negative
  | nan => False

/-! ### Powers of two -/

theorem natPow_eq (b n : Nat) : Nat.pow b n = b ^ n := rfl

variable {num den : Nat} {e : Int}

/-- The quotient `num / den` is below `2 ^ e`. -/
def Below (num den : Nat) (e : Int) : Prop := num * powerDen e < den * powerNum e

theorem powerNum_natCast (n : Nat) : powerNum n = 2 ^ n ∧ powerDen n = 1 := by
  refine ⟨rfl, ?_⟩
  rw [powerDen, Int.toNat_of_nonpos (by omega)]

theorem powerDen_neg_natCast (n : Nat) : powerDen (-n) = 2 ^ n ∧ powerNum (-n) = 1 := by
  refine ⟨by rw [powerDen, Int.neg_neg]; rfl, ?_⟩
  rw [powerNum, Int.toNat_of_nonpos (by omega)]

/-- Twice the power is the next one. -/
theorem below_succ (num den : Nat) (e : Int) :
    Below num den (e + 1) ↔ num * powerDen e < 2 * (den * powerNum e) := by
  unfold Below
  obtain ⟨n, rfl | rfl⟩ := Int.eq_nat_or_neg e
  · obtain ⟨hn, hd⟩ := powerNum_natCast n
    obtain ⟨hn', hd'⟩ := powerNum_natCast (n + 1)
    rw [Int.natCast_add, Int.natCast_one] at hn' hd'
    rw [hn, hd, hn', hd', Nat.pow_succ, ← Nat.mul_assoc, Nat.mul_comm 2]
  · cases n with
    | zero => exact iff_of_eq (by simp [powerNum, powerDen, Nat.mul_comm])
    | succ n =>
      obtain ⟨hd, hn⟩ := powerDen_neg_natCast (n + 1)
      obtain ⟨hd', hn'⟩ := powerDen_neg_natCast n
      have he : -((n + 1 : Nat) : Int) + 1 = -(n : Int) := by omega
      rw [he, hn, hd, hn', hd', Nat.pow_succ, ← Nat.mul_assoc, Nat.mul_one]
      omega

theorem below_add (num den : Nat) (e : Int) (k : Nat) :
    Below num den (e + k) ↔ num * powerDen e < 2 ^ k * (den * powerNum e) := by
  induction k generalizing den with
  | zero => simp [Below]
  | succ k ih =>
    have hdouble : Below num den (e + k + 1) ↔ Below num (2 * den) (e + k) := by
      rw [below_succ, Below, Nat.mul_assoc]
    rw [Int.natCast_add, Int.natCast_one, ← Int.add_assoc, hdouble, ih, Nat.pow_succ]
    simp only [Nat.mul_assoc]

theorem Below.mono {e' : Int} (h : Below num den e) (he : e ≤ e') : Below num den e' := by
  obtain ⟨k, rfl⟩ := Int.le.dest he
  rw [below_add]
  exact Nat.lt_of_lt_of_le h (Nat.le_mul_of_pos_left _ (Nat.two_pow_pos k))

/-- The lengths of the parts of a quotient give a power of two above it. -/
theorem below_log2 (num : Nat) (hden : den ≠ 0) : Below num den (num.log2 - den.log2 + 1) := by
  have hlt := Nat.lt_log2_self (n := num)
  have hle := Nat.log2_self_le hden
  unfold Below
  rcases Nat.le_total den.log2 (num.log2 + 1) with h | h
  · have he : (num.log2 : Int) - den.log2 + 1 = (num.log2 + 1 - den.log2 : Nat) := by omega
    obtain ⟨hn, hd⟩ := powerNum_natCast (num.log2 + 1 - den.log2)
    rw [he, hn, hd, Nat.mul_one]
    calc num < 2 ^ (num.log2 + 1) := hlt
      _ = 2 ^ den.log2 * 2 ^ (num.log2 + 1 - den.log2) := by rw [← Nat.pow_add]; congr 1; omega
      _ ≤ den * 2 ^ (num.log2 + 1 - den.log2) := Nat.mul_le_mul_right _ hle
  · have he : (num.log2 : Int) - den.log2 + 1 = -(den.log2 - (num.log2 + 1) : Nat) := by omega
    obtain ⟨hd, hn⟩ := powerDen_neg_natCast (den.log2 - (num.log2 + 1))
    rw [he, hn, hd, Nat.mul_one]
    calc num * 2 ^ (den.log2 - (num.log2 + 1))
      _ < 2 ^ (num.log2 + 1) * 2 ^ (den.log2 - (num.log2 + 1)) :=
        Nat.mul_lt_mul_of_pos_right hlt (Nat.two_pow_pos _)
      _ = 2 ^ den.log2 := by rw [← Nat.pow_add]; congr 1; omega
      _ ≤ den := hle

/-- The lengths of the parts of a quotient give a power of two that is not above it. -/
theorem not_below_log2 (hnum : num ≠ 0) : ¬ Below num den (num.log2 - den.log2 - 1) := by
  have hle := Nat.log2_self_le hnum
  have hlt := Nat.lt_log2_self (n := den)
  unfold Below
  rw [Nat.not_lt]
  rcases Nat.le_total (den.log2 + 1) num.log2 with h | h
  · have he : (num.log2 : Int) - den.log2 - 1 = (num.log2 - (den.log2 + 1) : Nat) := by omega
    obtain ⟨hn, hd⟩ := powerNum_natCast (num.log2 - (den.log2 + 1))
    rw [he, hn, hd, Nat.mul_one]
    calc den * 2 ^ (num.log2 - (den.log2 + 1))
      _ ≤ 2 ^ (den.log2 + 1) * 2 ^ (num.log2 - (den.log2 + 1)) :=
        Nat.mul_le_mul_right _ (Nat.le_of_lt hlt)
      _ = 2 ^ num.log2 := by rw [← Nat.pow_add]; congr 1; omega
      _ ≤ num := hle
  · have he : (num.log2 : Int) - den.log2 - 1 = -(den.log2 + 1 - num.log2 : Nat) := by omega
    obtain ⟨hd, hn⟩ := powerDen_neg_natCast (den.log2 + 1 - num.log2)
    rw [he, hn, hd, Nat.mul_one]
    calc den ≤ 2 ^ (den.log2 + 1) := Nat.le_of_lt hlt
      _ = 2 ^ num.log2 * 2 ^ (den.log2 + 1 - num.log2) := by rw [← Nat.pow_add]; congr 1; omega
      _ ≤ num * 2 ^ (den.log2 + 1 - num.log2) := Nat.mul_le_mul_right _ hle

/-! ### Rounding -/

/-- At its exponent a quotient is below `2 ^ 53`, and not below `2 ^ 52` unless the exponent is the
least one. -/
theorem below_exponentOf (hnum : num ≠ 0) (hden : den ≠ 0) :
    leastExponent ≤ exponentOf num den ∧ Below num den (exponentOf num den + (53 : Nat)) ∧
      (¬ Below num den (exponentOf num den + (52 : Nat)) ∨ exponentOf num den = leastExponent) := by
  -- without the bound from below, `e` is the exponent
  obtain ⟨e, he, hhigh, hlow⟩ : ∃ e, exponentOf num den = max leastExponent e ∧
      Below num den (e + (53 : Nat)) ∧ ¬ Below num den (e + (52 : Nat)) := by
    refine ⟨_, rfl, ?_⟩
    have htest := below_add num den (num.log2 - den.log2 - 52) 52
    split_ifs with h
    · refine ⟨(htest.2 h).mono (by omega), fun hb => not_below_log2 hnum (hb.mono (by omega))⟩
    · exact ⟨(below_log2 num hden).mono (by omega), fun hb => h (htest.1 hb)⟩
  rw [he]
  refine ⟨Int.le_max_left _ _, hhigh.mono (by omega), ?_⟩
  rcases Int.le_total leastExponent e with h | h
  · exact .inl (by rwa [Int.max_eq_right h])
  · exact .inr (Int.max_eq_left h)

theorem roundHalfEven_le {k : Nat} (h : num < k * den) : roundHalfEven num den ≤ k := by
  have hquotient : num / den < k := Nat.div_lt_of_lt_mul (by rwa [Nat.mul_comm])
  simp only [roundHalfEven]
  split_ifs <;> omega

theorem le_roundHalfEven {k : Nat} (hden : 0 < den) (h : k * den ≤ num) :
    k ≤ roundHalfEven num den := by
  have hquotient : k ≤ num / den := (Nat.le_div_iff_mul_le hden).2 h
  simp only [roundHalfEven]
  split_ifs <;> omega

theorem ofMantissa_canonical (negative : Bool) {m : Nat} (hm : m ≤ 2 ^ 53)
    (he : leastExponent ≤ e) (hlow : 2 ^ 52 ≤ m ∨ e = leastExponent) :
    (ofMantissa negative m e).Canonical negative := by
  simp only [ofMantissa, natPow_eq]
  split_ifs with hc hover hover
  · rfl
  · exact ⟨rfl, by omega, by omega, .inl (Nat.le_refl _)⟩
  · rfl
  · exact ⟨rfl, by omega, he, hlow⟩

theorem nearest_canonical (negative : Bool) (num : Nat) (hden : den ≠ 0) :
    (nearest negative num den).Canonical negative := by
  unfold nearest
  split_ifs with hnum
  · exact ⟨rfl, by omega, Int.le_refl _, .inr rfl⟩
  obtain ⟨hleast, hhigh, hlow⟩ := below_exponentOf hnum hden
  have hpos : 0 < den * powerNum (exponentOf num den) :=
    Nat.mul_pos (Nat.pos_of_ne_zero hden) (Nat.two_pow_pos _)
  rw [below_add] at hhigh
  rw [below_add, Nat.not_lt] at hlow
  refine ofMantissa_canonical negative (roundHalfEven_le hhigh) hleast ?_
  exact hlow.imp_left (le_roundHalfEven hpos)

/-- **A number that is read from a decimal is canonical.** -/
theorem ofDecimal_canonical (negative : Bool) (d : Decimal) :
    (ofDecimal negative d).Canonical negative := by
  have hzero : (finite negative 0 leastExponent).Canonical negative :=
    ⟨rfl, by omega, Int.le_refl _, .inr rfl⟩
  have hten : ∀ n, Nat.pow 10 n ≠ 0 := fun n => Nat.ne_of_gt (Nat.pow_pos (by omega))
  unfold ofDecimal
  split_ifs
  · exact hzero
  · rfl
  · exact hzero
  · exact nearest_canonical _ _ (by omega)
  · exact nearest_canonical _ _ (hten _)

theorem ofDigits_canonical (whole fraction : List Char) :
    (ofDigits whole fraction).Canonical false := ofDecimal_canonical false _

/-! ### Values -/

/-- A mantissa of at most 53 bits cannot make up for a higher exponent. -/
theorem eq_of_mul_two_pow_eq {m m' : Nat} {e e' : Int} (hm : m < 2 ^ 53) (hle : leastExponent ≤ e)
    (hee : e ≤ e') (hlow : 2 ^ 52 ≤ m' ∨ e' = leastExponent)
    (h : m * 2 ^ (e - leastExponent).toNat = m' * 2 ^ (e' - leastExponent).toNat) :
    m = m' ∧ e = e' := by
  obtain ⟨k, rfl⟩ := Int.le.dest hee
  have hexp : (e + k - leastExponent).toNat = k + (e - leastExponent).toNat := by omega
  rw [hexp, Nat.pow_add, ← Nat.mul_assoc] at h
  have hm' : m = m' * 2 ^ k := Nat.eq_of_mul_eq_mul_right (Nat.two_pow_pos _) h
  cases k with
  | zero => exact ⟨by simpa using hm', by omega⟩
  | succ k =>
    have hbig : 2 ^ 52 ≤ m' := hlow.resolve_right (by omega)
    have hpos := Nat.two_pow_pos k
    rw [Nat.pow_succ] at hm'
    have hdouble : m' * 2 ≤ m := by
      rw [hm', Nat.mul_comm (2 ^ k), ← Nat.mul_assoc]
      exact Nat.le_mul_of_pos_right _ hpos
    omega

/-- **Canonical numbers of the same size are the same.** -/
theorem eq_of_units_eq {x y : Binary64} {n : Int} (hx : x.Canonical false) (hy : y.Canonical false)
    (hxn : x.units = some n) (hyn : y.units = some n) : x = y := by
  cases x with
  | infinite _ => cases hxn
  | nan => cases hxn
  | finite s m e =>
    cases y with
    | infinite _ => cases hyn
    | nan => cases hyn
    | finite s' m' e' =>
      obtain ⟨rfl, hm, he, hlow⟩ := hx
      obtain ⟨rfl, hm', he', hlow'⟩ := hy
      have hsize : (m * Nat.pow 2 (e - leastExponent).toNat : Int) =
          m' * Nat.pow 2 (e' - leastExponent).toNat := by
        simpa [units] using hxn.trans hyn.symm
      have hnat : m * 2 ^ (e - leastExponent).toNat = m' * 2 ^ (e' - leastExponent).toNat := by
        exact_mod_cast hsize
      rcases Int.le_total e e' with h | h
      · obtain ⟨rfl, rfl⟩ := eq_of_mul_two_pow_eq hm he h hlow' hnat
        rfl
      · obtain ⟨rfl, rfl⟩ := eq_of_mul_two_pow_eq hm' he' h hlow hnat.symm
        rfl

end LoxFront.Binary64
