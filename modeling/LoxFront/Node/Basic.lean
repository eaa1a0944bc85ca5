import LoxFront.Tree.Basic

/-!
# Trees made by hand

A `Node` is a tree that nothing has checked: any node may stand in any place, a node may be of no
construct in particular, and values may stand where a node belongs.  The trees of programs are
among them (`Expr.toNode`, `Stmt.toNode`, `Program.toNodes`).

`Node.description` writes a tree with the names of all its parts, and `Node.agrees` compares two
trees part by part, literals by value.
-/

namespace LoxFront

/-- What is known of a node of no construct in particular. -/
inductive BareSort where
  | node
  | expression
  | statement
deriving DecidableEq, Repr

/-- A node, or what stands in its place. -/
inductive Node where
  /-- A value in the place of a node.  The value `nil` means that nothing is there. -/
  | value (v : Literal)
  /-- A node of no construct in particular. -/
  | bare (sort : BareSort)
  | literal (v : Literal)
  | reference (name : Token)
  | assign (name : Token) (value : Node)
  | unary (operator : Token) (right : Node)
  | binary (left : Node) (operator : Token) (right : Node)
  | group (inner : Node)
  | expression (e : Node)
  | print (e : Node)
  | declare (name : Token) (initial : Node)
  | block (items : List Node)
deriving Repr

namespace Node

/-- The place of a node where nothing is. -/
def absent : Node := .value .nil

/-- Whether nothing stands in a place. -/
def isAbsent : Node → Bool
  | value .nil => true
  | _ => false

/-- The entries of a list where something is. -/
def present (nodes : List Node) : List Node := nodes.filter fun n => !n.isAbsent

/-- Whether a node stands in a place, and not a value. -/
def isNode : Node → Bool
  | value _ => false
  | _ => true

/-! ### Description -/

/-- The name of a node's construct. -/
def label : Node → String
  | value _ => "Value"
  | bare .node => "ASTNode"
  | bare .expression => "Expression"
  | bare .statement => "Statement"
  | literal _ => "Literal"
  | reference _ => "VariableExpression"
  | assign _ _ => "AssignmentExpression"
  | unary _ _ => "UnaryExpression"
  | binary _ _ _ => "BinaryExpression"
  | group _ => "GroupingExpression"
  | expression _ => "ExpressionStatement"
  | print _ => "PrintStatement"
  | declare _ _ => "VarDeclaration"
  | block _ => "BlockStatement"

/-- A construct with its named parts. -/
def construct (label : String) (parts : List (String × String)) : String :=
  label ++ "(" ++ ", ".intercalate (parts.map fun (name, part) => name ++ "=" ++ part) ++ ")"

/-- A sequence in parentheses; a comma follows a single item. -/
def sequence : List String → String
  | [item] => "(" ++ item ++ ",)"
  | items => "(" ++ ", ".intercalate items ++ ")"

mutual

/-- A tree with the names of its parts. -/
def description : Node → String
  | value v => v.description
  | bare sort => construct (bare sort).label []
  | n@(literal v) => construct n.label [("value", v.description)]
  | n@(reference name) => construct n.label [("name", name.description)]
  | n@(assign name e) =>
    construct n.label [("name", name.description), ("value", e.description)]
  | n@(unary operator right) =>
    construct n.label [("operator", operator.description), ("right", right.description)]
  | n@(binary left operator right) =>
    construct n.label
      [("left", left.description), ("operator", operator.description), ("right", right.description)]
  | n@(group inner) => construct n.label [("expression", inner.description)]
  | n@(expression e) => construct n.label [("expression", e.description)]
  | n@(print e) => construct n.label [("expression", e.description)]
  | n@(declare name initial) =>
    construct n.label [("name", name.description), ("initializer", initial.description)]
  | n@(block items) => construct n.label [("statements", sequence (descriptions items))]

/-- The descriptions of a list of trees. -/
def descriptions : List Node → List String
  | [] => []
  | n :: rest => n.description :: descriptions rest

end

/-! ### Equality -/

mutual

/-- Equality of trees: the same constructs, tokens equal up to their values, and equal values. -/
def agrees : Node → Node → Bool
  | value v, value w => v.agrees w
  | bare s, bare t => s == t
  | literal v, literal w => v.agrees w
  | reference s, reference t => s.agrees t
  | assign s v, assign t w => s.agrees t && v.agrees w
  | unary s v, unary t w => s.agrees t && v.agrees w
  | binary u s v, binary u' t v' => u.agrees u' && s.agrees t && v.agrees v'
  | group u, group v => u.agrees v
  | expression u, expression v => u.agrees v
  | print u, print v => u.agrees v
  | declare s u, declare t v => s.agrees t && u.agrees v
  | block us, block vs => listsAgree us vs
  | _, _ => false

/-- Equality of lists of trees. -/
def listsAgree : List Node → List Node → Bool
  | [], [] => true
  | u :: us, v :: vs => u.agrees v && listsAgree us vs
  | _, _ => false

end

end Node

/-! ### The trees of programs -/

/-- An expression as a node. -/
def Expr.toNode : Expr → Node
  | literal v => .literal v
  | reference name => .reference name
  | assign name value => .assign name value.toNode
  | unary operator right => .unary operator right.toNode
  | binary left operator right => .binary left.toNode operator right.toNode
  | group inner => .group inner.toNode

namespace Stmt

mutual

/-- A statement as a node. -/
def toNode : Stmt → Node
  | expression e => .expression e.toNode
  | print e => .print e.toNode
  | declare name none => .declare name .absent
  | declare name (some e) => .declare name e.toNode
  | block items => .block (toNodes items)

/-- Statements as nodes. -/
def toNodes : List Stmt → List Node
  | [] => []
  | s :: rest => s.toNode :: toNodes rest

end

end Stmt

/-- An entry of a program as a node; a gap is the absence of one. -/
def Program.entryNode : Option Stmt → Node
  | none => .absent
  | some s => s.toNode

/-- The entries of a program as nodes. -/
def Program.toNodes (p : Program) : List Node := p.map entryNode

end LoxFront
