import LoxFront.Token.Basic

/-!
# Syntax trees

The trees of programs: expressions, statements, and lists of statements.  In the tree of a program
with errors a statement that could not be read leaves a gap.
-/

namespace LoxFront

/-- An expression. -/
inductive Expr where
  | literal (value : Literal)
  /-- The value of a variable. -/
  | reference (name : Token)
  /-- Assignment to a variable. -/
  | assign (name : Token) (value : Expr)
  /-- A prefix operator and its operand. -/
  | unary (operator : Token) (right : Expr)
  | binary (left : Expr) (operator : Token) (right : Expr)
  /-- An expression in parentheses. -/
  | group (inner : Expr)
deriving DecidableEq, Repr

/-- A statement. -/
inductive Stmt where
  /-- An expression that is evaluated for its effect. -/
  | expression (e : Expr)
  | print (e : Expr)
  /-- The declaration of a variable, with or without an initial value. -/
  | declare (name : Token) (initial : Option Expr)
  | block (items : List Stmt)
deriving Repr

/-- A program; `none` stands where a statement could not be read. -/
abbrev Program := List (Option Stmt)

namespace Stmt

mutual

/-- Decides equality of statements. -/
def decideEq : (a b : Stmt) → Decidable (a = b)
  | .expression e, .expression f => decidable_of_iff (e = f) (by simp)
  | .print e, .print f => decidable_of_iff (e = f) (by simp)
  | .declare s e, .declare t f => decidable_of_iff (s = t ∧ e = f) (by simp)
  | .block xs, .block ys =>
    match decideListEq xs ys with
    | isTrue h => isTrue (by rw [h])
    | isFalse h => isFalse fun h' => h (by injection h')
  | .expression _, .print _ | .expression _, .declare _ _ | .expression _, .block _ =>
    isFalse nofun
  | .print _, .expression _ | .print _, .declare _ _ | .print _, .block _ => isFalse nofun
  | .declare _ _, .expression _ | .declare _ _, .print _ | .declare _ _, .block _ => isFalse nofun
  | .block _, .expression _ | .block _, .print _ | .block _, .declare _ _ => isFalse nofun

/-- Decides equality of lists of statements. -/
def decideListEq : (xs ys : List Stmt) → Decidable (xs = ys)
  | [], [] => isTrue rfl
  | [], _ :: _ => isFalse nofun
  | _ :: _, [] => isFalse nofun
  | x :: xs, y :: ys =>
    match decideEq x y, decideListEq xs ys with
    | isTrue h, isTrue h' => isTrue (by rw [h, h'])
    | isFalse h, _ => isFalse fun h' => h (by injection h')
    | _, isFalse h => isFalse fun h' => h (by injection h')

end

instance : DecidableEq Stmt := decideEq

end Stmt

end LoxFront
