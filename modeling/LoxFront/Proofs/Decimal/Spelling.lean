import LoxFront.Literal
import Mathlib.Tactic.SplitIfs

/-!
# How numbers are spelled

A finite number without a sign is spelled with a digit in front, and behind it with digits, a point,
and an exponent with its sign (`isNumeral_spelling`), in every layout of its digits.  So it can be
taken neither for a name nor for a reserved word.
-/

namespace LoxFront

/-- Whether a character may stand in the spelling of a number. -/
def isNumeralPart (c : Char) : Bool := c.isDigit || c = '.' || c = 'e' || c = '+' || c = '-'

/-- What a number is spelled like: a digit, and characters of numbers behind it. -/
def IsNumeral (w : List Char) : Prop :=
  (∃ c cs, w = c :: cs ∧ c.isDigit = true) ∧ ∀ c ∈ w, isNumeralPart c = true

theorem isNumeralPart_of_isDigit {c : Char} (h : c.isDigit = true) : isNumeralPart c = true := by
  rw [isNumeralPart, h]
  rfl

/-- A run of digits that is not empty. -/
theorem isNumeral_of_digits {w : List Char} (hne : w ≠ []) (h : ∀ c ∈ w, c.isDigit = true) :
    IsNumeral w := by
  obtain ⟨c, cs, rfl⟩ := List.exists_cons_of_ne_nil hne
  exact ⟨⟨c, cs, rfl, h c List.mem_cons_self⟩, fun d hd => isNumeralPart_of_isDigit (h d hd)⟩

theorem IsNumeral.append {v w : List Char} (hv : IsNumeral v) (hw : ∀ c ∈ w, isNumeralPart c = true) :
    IsNumeral (v ++ w) := by
  obtain ⟨⟨c, cs, rfl, hc⟩, hall⟩ := hv
  exact ⟨⟨c, cs ++ w, rfl, hc⟩, List.forall_mem_append.2 ⟨hall, hw⟩⟩

namespace Decimal

theorem isDigit_of_mem_toDigits {n : Nat} {c : Char} (h : c ∈ Nat.toDigits 10 n) :
    c.isDigit = true := Nat.isDigit_of_mem_toDigits (by omega) (by omega) h

theorem isDigit_of_mem_zeros {n : Nat} {c : Char} (h : c ∈ List.replicate n '0') :
    c.isDigit = true := by
  rw [List.eq_of_mem_replicate h]
  rfl

/-! ### Layouts -/

variable {digits : List Char}

theorem isNumeral_plainText (hne : digits ≠ []) (h : ∀ c ∈ digits, c.isDigit = true)
    (exponent : Int) : IsNumeral (plainText digits exponent) := by
  simp only [plainText]
  split_ifs
  · refine ((isNumeral_of_digits hne h).append fun c hc => ?_).append (List.all_eq_true.1 rfl)
    exact isNumeralPart_of_isDigit (isDigit_of_mem_zeros hc)
  -- with zeros in front there are more digits than places behind the point
  generalize hp : (-exponent).toNat = places
  have hall : ∀ c ∈ List.replicate (places + 1 - digits.length) '0' ++ digits, c.isDigit = true :=
    List.forall_mem_append.2 ⟨fun c => isDigit_of_mem_zeros, h⟩
  have hlen : places < (List.replicate (places + 1 - digits.length) '0' ++ digits).length := by
    rw [List.length_append, List.length_replicate]
    omega
  generalize List.replicate (places + 1 - digits.length) '0' ++ digits = padded at hall hlen
  refine (isNumeral_of_digits ?_ fun c hc => hall c (List.mem_of_mem_take hc)).append ?_
  · rw [Ne, List.take_eq_nil_iff, not_or]
    exact ⟨by omega, List.ne_nil_of_length_pos (by omega)⟩
  · refine List.forall_mem_cons.2 ⟨by decide, fun c hc => ?_⟩
    exact isNumeralPart_of_isDigit (hall c (List.mem_of_mem_drop hc))

theorem isNumeral_scientificText (layout : Layout) (hne : digits ≠ [])
    (h : ∀ c ∈ digits, c.isDigit = true) (power : Int) :
    IsNumeral (scientificText layout digits power) := by
  have hdrop : ∀ c ∈ digits.drop 1, isNumeralPart c = true := fun c hc =>
    isNumeralPart_of_isDigit (h c (List.mem_of_mem_drop hc))
  have hpadded : ∀ c ∈ (padded layout.exponentWidth power.natAbs).toList, isNumeralPart c = true := by
    simp only [padded, String.toList_ofList]
    exact List.forall_mem_append.2 ⟨fun c hc => isNumeralPart_of_isDigit (isDigit_of_mem_zeros hc),
      fun c hc => isNumeralPart_of_isDigit (isDigit_of_mem_toDigits hc)⟩
  simp only [scientificText]
  refine ((isNumeral_of_digits ?_ fun c hc => h c (List.mem_of_mem_take hc)).append ?_).append ?_
  · rw [Ne, List.take_eq_nil_iff, not_or]
    exact ⟨by omega, hne⟩
  · split
    · exact List.forall_mem_nil _
    · exact List.forall_mem_cons.2 ⟨by decide, hdrop⟩
  · refine List.forall_mem_cons.2 ⟨by decide, List.forall_mem_cons.2 ⟨?_, hpadded⟩⟩
    split_ifs <;> decide

/-- A decimal is spelled like a number in every layout. -/
theorem isNumeral_text (layout : Layout) (d : Decimal) : IsNumeral (d.text layout) := by
  have hdigits : ∀ c ∈ Nat.toDigits 10 d.digits, c.isDigit = true := fun c => isDigit_of_mem_toDigits
  simp only [text]
  split_ifs
  · exact isNumeral_plainText Nat.toDigits_ne_nil hdigits _
  · exact isNumeral_scientificText layout Nat.toDigits_ne_nil hdigits _

end Decimal

/-! ### Spellings -/

theorem isNumeral_natCast (n : Nat) : IsNumeral (toString (n : Int)).toList := by
  have hdigits : (toString (n : Int)).toList = Nat.toDigits 10 n := String.toList_ofList
  rw [hdigits]
  exact isNumeral_of_digits Nat.toDigits_ne_nil fun c => Decimal.isDigit_of_mem_toDigits

theorem isNumeral_binary64Text (m : Nat) (e : Int) :
    IsNumeral (Binary64.finite false m e).text.toList := by
  simp only [Binary64.text, Bool.false_eq_true, ↓reduceIte]
  split_ifs
  · exact ⟨⟨'0', ['.', '0'], rfl, rfl⟩, List.all_eq_true.1 rfl⟩
  · rw [String.toList_ofList]
    exact Decimal.isNumeral_text _ _

/-- **A finite number without a sign is spelled like a number.** -/
theorem isNumeral_spelling (m : Nat) (e : Int) :
    IsNumeral (Literal.number (.finite false m e)).spelling.toList := by
  rw [Literal.spelling]
  split
  · rename_i n hn
    obtain ⟨k, rfl⟩ : ∃ k : Nat, n = k := by
      simp only [Binary64.whole?, Bool.false_eq_true, ↓reduceIte] at hn
      split_ifs at hn
      cases hn
      exact Int.eq_ofNat_of_zero_le
        (Int.ediv_nonneg (Int.mul_nonneg (by omega) (by omega)) (by omega))
    exact isNumeral_natCast k
  · exact isNumeral_binary64Text m e

end LoxFront
