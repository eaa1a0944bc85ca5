import LoxFront.Node.Basic
import LoxFront.Tree.Render

/-!
# Printing unchecked trees

A `Printer` collects lines at a level of indentation.  Printing a tree that nothing has checked may
come upon something that has no text (`NodeFault`); the lines written up to there and the level
reached then stay in the printer, until the next `Printer.print` starts anew.
-/

namespace LoxFront

/-- What does not belong in its place in a tree. -/
inductive NodeFault where
  /-- Not the node of a construct. -/
  | notNode (n : Node)
  /-- Not an expression. -/
  | notExpression (n : Node)
  /-- Not a statement. -/
  | notStatement (n : Node)
  /-- A value that has no entries. -/
  | notList (v : Literal)
deriving Repr

/-- The name of a value's type in a diagnosis. -/
def Literal.typeName : Literal → String
  | nil => "NoneType"
  | bool _ => "bool"
  | number _ => "float"
  | integer _ => "int"
  | text _ => "str"

/-- The message about a fault. -/
def NodeFault.message : NodeFault → String
  | notNode n => "not an AST node: " ++ n.description
  | notExpression n => "not an expression node: " ++ n.description
  | notStatement n => "not a statement node: " ++ n.description
  | notList v => "'" ++ v.typeName ++ "' object is not iterable"

namespace Node

/-! ### Prefix form -/

/-- An expression in prefix form. -/
def expressionForm : Node → Except NodeFault String
  | literal v => .ok v.spelling
  | reference name => .ok name.lexeme
  | assign name e => do return "(= " ++ name.lexeme ++ " " ++ (← e.expressionForm) ++ ")"
  | unary operator right => do
    return "(" ++ operator.lexeme ++ " " ++ (← right.expressionForm) ++ ")"
  | binary left operator right => do
    let left ← left.expressionForm
    let right ← right.expressionForm
    return "(" ++ operator.lexeme ++ " " ++ left ++ " " ++ right ++ ")"
  | group inner => do return "(group " ++ (← inner.expressionForm) ++ ")"
  | n => .error (.notExpression n)

/-- The initial value of a declaration behind some text; nothing, if there is no initial value. -/
def initialForm (before : String) (initial : Node) : Except NodeFault String :=
  if initial.isAbsent then .ok ""
  else do return before ++ (← initial.expressionForm)

mutual

/-- A statement in prefix form. -/
def statementForm : Node → Except NodeFault String
  | expression e => do return "(expr " ++ (← e.expressionForm) ++ ")"
  | print e => do return "(print " ++ (← e.expressionForm) ++ ")"
  | declare name initial => do
    return "(var " ++ name.lexeme ++ (← initialForm " " initial) ++ ")"
  | block items => do return "(block" ++ (← statementForms items) ++ ")"
  | n => .error (.notStatement n)

/-- Statements in prefix form, each behind a space. -/
def statementForms : List Node → Except NodeFault String
  | [] => .ok ""
  | n :: rest => do
    let form ← n.statementForm
    return " " ++ form ++ (← statementForms rest)

end

/-- The statements of a list in prefix form, without the absent ones. -/
def forms (nodes : List Node) : Except NodeFault (List String) :=
  (present nodes).mapM statementForm

end Node

/-! ### Listing -/

/-- Lines written so far, and the level of the next line. -/
structure Printer where
  lines : List String := []
  level : Nat := 0
deriving DecidableEq, Repr

namespace Printer

/-- A printing step, which changes the printer and may come upon a fault. -/
abbrev Step (α : Type) := EStateM NodeFault Printer α

/-- Writes a line at the present level. -/
def emit (text : String) (p : Printer) : Printer :=
  { p with lines := p.lines ++ [indentation p.level ++ text] }

/-- Moves the following lines to the right. -/
def indent (p : Printer) : Printer := { p with level := p.level + 1 }

/-- Moves the following lines back to the left, as far as the margin. -/
def dedent (p : Printer) : Printer := { p with level := p.level - 1 }

/-- Writes a line with the text of an expression, if it has one. -/
def emitForm (before : String) (form : Except NodeFault String) : Step Unit := do
  match form with
  | .ok text => modify (emit (before ++ text))
  | .error fault => throw fault

mutual

/-- Writes the lines of a node. -/
def visit : Node → Step Unit
  | .value v => throw (.notNode (.value v))
  | .bare sort => throw (.notNode (.bare sort))
  | .expression e => emitForm "Expr " e.expressionForm
  | .print e => emitForm "Print " e.expressionForm
  | .declare name initial => emitForm ("Var " ++ name.lexeme) (Node.initialForm " = " initial)
  | .block items => do
    modify (emit "Block")
    modify indent
    visitAll items
    modify dedent
  | n@(.literal _) => emitForm "" n.expressionForm
  | n@(.reference _) => emitForm "" n.expressionForm
  | n@(.assign _ _) => emitForm "" n.expressionForm
  | n@(.unary _ _) => emitForm "" n.expressionForm
  | n@(.binary _ _ _) => emitForm "" n.expressionForm
  | n@(.group _) => emitForm "" n.expressionForm

/-- Writes the lines of nodes. -/
def visitAll : List Node → Step Unit
  | [] => return
  | n :: rest => do
    visit n
    visitAll rest

end

/-- Writes the lines of the nodes of a program, without the absent ones, and counts them. -/
def visitProgram (nodes : List Node) : Step Nat := do
  let present := Node.present nodes
  visitAll present
  return present.length

/-- Writes the line of a gap, or the lines of a node. -/
def printEntry (n : Node) : Step Unit :=
  if n.isAbsent then modify (emit "<error>") else visit n

/-- Writes the lines of entries. -/
def printEntries : List Node → Step Unit
  | [] => return
  | n :: rest => do
    printEntry n
    printEntries rest

/-- Writes a heading and, indented, the lines of a program. -/
def listProgram (entries : Step Unit) : Step Unit := do
  modify (emit "Program")
  modify indent
  entries
  modify dedent

/-- Starts with an empty page, writes to it, and gives its text. -/
def onEmptyPage (write : Step Unit) : Step String := do
  set ({} : Printer)
  write
  return "\n".intercalate (← get).lines

/-- The listing of a program. -/
def print (nodes : List Node) : Step String := onEmptyPage (listProgram (printEntries nodes))

/-- The text of a single node.  A value is taken for a list of entries: the characters, if it is a
text. -/
def printNode : Node → Step String
  | .value (.text s) =>
    print (s.toList.map fun c => .value (.text (String.singleton c)))
  | .value v => onEmptyPage (listProgram (throw (.notList v)))
  | n => onEmptyPage (visit n)

end Printer

end LoxFront
