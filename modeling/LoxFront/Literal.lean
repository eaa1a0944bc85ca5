import LoxFront.Decimal.Layout
import LoxFront.Text.Quoted

/-!
# Literal values

The values that literals stand for.  They are written in two ways: `Literal.spelling` is the form
that a program has, `Literal.description` the form of a diagnosis, where text is quoted and a whole
number keeps its fraction.  `Literal.agrees` compares by value: numbers of all sorts and truth
values, which count as zero and one, are compared exactly.
-/

namespace LoxFront

/-- The value of a literal.  Integers arise in trees made by hand only; the numbers of a program
are binary floating point. -/
inductive Literal where
  | nil
  | bool (value : Bool)
  | number (value : Binary64)
  | integer (value : Int)
  | text (value : String)
deriving DecidableEq, Repr

namespace Literal

/-- The literal as a program spells it.  A whole number has no fraction. -/
def spelling : Literal → String
  | nil => "nil"
  | bool true => "true"
  | bool false => "false"
  | number x =>
    match x.whole? with
    | some n => toString n
    | none => x.text
  | integer n => toString n
  | text s => "\"" ++ s ++ "\""

/-- The literal in a diagnosis. -/
def description : Literal → String
  | nil => "None"
  | bool true => "True"
  | bool false => "False"
  | number x => x.text
  | integer n => toString n
  | text s => Text.quoted s

/-- The exact value of what counts as a finite number, in units of `2 ^ -1074`. -/
def units? : Literal → Option Int
  | bool b => some (if b then Nat.pow 2 1074 else 0)
  | integer n => some (n * Nat.pow 2 1074)
  | number x => x.units
  | nil | text _ => none

/-- Equality of values. -/
def agrees (a b : Literal) : Bool :=
  match a, b with
  | nil, nil => true
  | text s, text t => s == t
  | number (.infinite s), number (.infinite t) => s == t
  | a, b =>
    match a.units?, b.units? with
    | some m, some n => m == n
    | _, _ => false

end Literal

end LoxFront
