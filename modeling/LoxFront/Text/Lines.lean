/-!
# Lines

Two conventions on where a line ends.  `newlines` reduces the three customary line ends to the
newline character; `lines` splits a text at every character that some convention takes for a
line end.
-/

namespace LoxFront.Text

/-- Writes every carriage return, with the newline behind it if there is one, as a newline. -/
def newlines : List Char → List Char
  | [] => []
  | '\r' :: '\n' :: rest => '\n' :: newlines rest
  | '\r' :: rest => '\n' :: newlines rest
  | c :: rest => c :: newlines rest

/-- The characters at which a line ends: newline, vertical tab, form feed, carriage return, the file,
group and record separators, the next-line control, and the line and paragraph separators. -/
def isLineEnd (c : Char) : Bool :=
  let n := c.toNat
  (0x0a ≤ n && n ≤ 0x0d) || (0x1c ≤ n && n ≤ 0x1e) || n = 0x85 || n = 0x2028 || n = 0x2029

/-- The lines of a text, after the characters of the line so far, the last one first.  A carriage
return and the newline behind it are one line end; a text that ends with a line end has no empty
line behind it. -/
def linesFrom (soFar : List Char) : List Char → List String
  | [] => if soFar = [] then [] else [String.ofList soFar.reverse]
  | '\r' :: '\n' :: rest => String.ofList soFar.reverse :: linesFrom [] rest
  | c :: rest =>
    if isLineEnd c then String.ofList soFar.reverse :: linesFrom [] rest
    else linesFrom (c :: soFar) rest

/-- The lines of a text. -/
def lines (s : String) : List String := linesFrom [] s.toList

end LoxFront.Text
