import LoxFront.Tree.Basic

/-!
# Trees as text

Two renderings of a program.  In prefix form an expression is its operator and its operands in
parentheses, and each statement is one such form (`Program.forms`).  The listing has a line for
each statement, indented under the block that holds it, and shows the gaps (`Program.listing`).
-/

namespace LoxFront

/-- The text in front of a line at a level. -/
def indentation (level : Nat) : String := String.ofList (List.replicate (2 * level) ' ')

/-- An expression in prefix form. -/
def Expr.form : Expr → String
  | .literal v => v.spelling
  | .reference name => name.lexeme
  | .assign name value => "(= " ++ name.lexeme ++ " " ++ value.form ++ ")"
  | .unary operator right => "(" ++ operator.lexeme ++ " " ++ right.form ++ ")"
  | .binary left operator right =>
    "(" ++ operator.lexeme ++ " " ++ left.form ++ " " ++ right.form ++ ")"
  | .group inner => "(group " ++ inner.form ++ ")"

namespace Stmt

mutual

/-- A statement in prefix form. -/
def form : Stmt → String
  | .expression e => "(expr " ++ e.form ++ ")"
  | .print e => "(print " ++ e.form ++ ")"
  | .declare name none => "(var " ++ name.lexeme ++ ")"
  | .declare name (some e) => "(var " ++ name.lexeme ++ " " ++ e.form ++ ")"
  | .block items => "(block" ++ forms items ++ ")"

/-- Statements in prefix form, each behind a space. -/
def forms : List Stmt → String
  | [] => ""
  | s :: rest => " " ++ s.form ++ forms rest

end

mutual

/-- The lines of a statement at a level. -/
def listing (level : Nat) : Stmt → List String
  | .expression e => [indentation level ++ "Expr " ++ e.form]
  | .print e => [indentation level ++ "Print " ++ e.form]
  | .declare name none => [indentation level ++ "Var " ++ name.lexeme]
  | .declare name (some e) => [indentation level ++ "Var " ++ name.lexeme ++ " = " ++ e.form]
  | .block items => (indentation level ++ "Block") :: listings (level + 1) items

/-- The lines of statements at a level. -/
def listings (level : Nat) : List Stmt → List String
  | [] => []
  | s :: rest => s.listing level ++ listings level rest

end

end Stmt

namespace Program

/-- The statements of a program that could be read, in prefix form. -/
def forms (p : Program) : List String := (p.filterMap id).map Stmt.form

/-- The lines of an entry of a program. -/
def entryListing : Option Stmt → List String
  | none => [indentation 1 ++ "<error>"]
  | some s => s.listing 1

/-- The listing of a program: a heading, and the lines of its statements and gaps. -/
def listing (p : Program) : List String := "Program" :: p.flatMap entryListing

/-- The listing of a program as one text. -/
def listingText (p : Program) : String := "\n".intercalate p.listing

end Program

end LoxFront
