/-!
# Quoted text

Text in quotation marks, on one line and free of characters that cannot be seen.  The marks are
single ones, unless the text holds a single mark and no double one.  The mark itself and the
backslash are written behind a backslash, the usual blanks by their letters, and all other
unprintable characters by the digits of their code points.
-/

namespace LoxFront.Text

/-- The ranges of the characters that are not printable: controls, blanks other than the space,
format characters, characters for private use and code points that are no characters. -/
def unprintableRanges : List (Nat × Nat) :=
  [(0x0000, 0x001f), (0x007f, 0x00a0), (0x00ad, 0x00ad), (0x0600, 0x0605), (0x061c, 0x061c),
    (0x06dd, 0x06dd), (0x070f, 0x070f), (0x0890, 0x0891), (0x08e2, 0x08e2), (0x1680, 0x1680),
    (0x180e, 0x180e), (0x2000, 0x200f), (0x2028, 0x202f), (0x205f, 0x206f), (0x3000, 0x3000),
    (0xe000, 0xf8ff), (0xfdd0, 0xfdef), (0xfeff, 0xfeff), (0xfff0, 0xfffb), (0xfffe, 0xffff),
    (0x110bd, 0x110bd), (0x110cd, 0x110cd), (0x13430, 0x13438), (0x1bca0, 0x1bca3),
    (0x1d173, 0x1d17a), (0xe0000, 0xe00ff), (0xe01f0, 0x10ffff)]

/-- Whether a character is written as it is. -/
def isPrintable (c : Char) : Bool :=
  !unprintableRanges.any fun (low, high) => low ≤ c.toNat && c.toNat ≤ high

/-- A number in hexadecimal digits, with zeros in front up to a width. -/
def hexadecimal (width n : Nat) : List Char :=
  let digits := Nat.toDigits 16 n
  List.replicate (width - digits.length) '0' ++ digits

/-- The written form of a character between quotation marks. -/
def escape (mark c : Char) : List Char :=
  if c = mark ∨ c = '\\' then ['\\', c]
  else if c = '\n' then ['\\', 'n']
  else if c = '\r' then ['\\', 'r']
  else if c = '\t' then ['\\', 't']
  else if isPrintable c then [c]
  else if c.toNat ≤ 0xff then '\\' :: 'x' :: hexadecimal 2 c.toNat
  else if c.toNat ≤ 0xffff then '\\' :: 'u' :: hexadecimal 4 c.toNat
  else '\\' :: 'U' :: hexadecimal 8 c.toNat

/-- The quotation mark for a text. -/
def quotationMark (cs : List Char) : Char :=
  if cs.contains '\'' && !cs.contains '"' then '"' else '\''

/-- A text in quotation marks. -/
def quoted (s : String) : String :=
  let mark := quotationMark s.toList
  String.ofList (mark :: (s.toList.flatMap (escape mark) ++ [mark]))

end LoxFront.Text
