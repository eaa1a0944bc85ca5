/-!
# Blank characters

The characters with the white-space property, line and information separators included, and the
text between the blanks at either end.
-/

namespace LoxFront.Text

/-- Whether a character is blank: white space in any script, and the four information separators
`U+001C` to `U+001F`. -/
def isBlank (c : Char) : Bool :=
  let n := c.toNat
  (0x09 ≤ n && n ≤ 0x0d) || (0x1c ≤ n && n ≤ 0x20) || n = 0x85 || n = 0xa0 || n = 0x1680 ||
    (0x2000 ≤ n && n ≤ 0x200a) || n = 0x2028 || n = 0x2029 || n = 0x202f || n = 0x205f ||
    n = 0x3000

/-- The characters between a run of unwanted characters at either end. -/
def trim (unwanted : Char → Bool) (cs : List Char) : List Char :=
  ((cs.dropWhile unwanted).reverse.dropWhile unwanted).reverse

theorem isBlank_of_isWhitespace (c : Char) (h : c.isWhitespace) : isBlank c := by
  simp only [Char.isWhitespace, Bool.or_eq_true, decide_eq_true_eq] at h
  rcases h with ((rfl | rfl) | rfl) | rfl <;> decide

end LoxFront.Text
