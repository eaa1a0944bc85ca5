import LoxFront.Node.Printer

/-!
# Walking through trees

A walk passes through the nodes of a tree from the root down, and through the fields of a node in
order.  Some nodes may be marked as closed: the walk passes them and does not enter.  Values in the
place of a node are ignored inside a tree.  A node of no construct in particular ends the walk with a
fault, and so does a value at the top.

All that matters to a walk is which nodes stand in the fields of a node, and any field may hold any of
them: a `Part` is a tree as a walk sees it.  A `Node`, whose names and operators are tokens, is seen in
this way by `Node.toPart`.
-/

namespace LoxFront

/-! ### Parts -/

/-- What may stand in a field of a node.  An `α` is what there is to know of a node besides its fields,
and a `β` is a value that is no node. -/
inductive Part (α β : Type) where
  /-- Nothing is there. -/
  | absent
  /-- A value that is neither a node nor a sequence. -/
  | value (v : β)
  /-- A node of no construct in particular. -/
  | bare (n : α)
  /-- A node of a construct, with its fields in order. -/
  | node (n : α) (fields : List (Part α β))
  | sequence (items : List (Part α β))
deriving Repr

namespace Part

variable {α β : Type}

/-- Whether nothing stands in a place. -/
def isAbsent : Part α β → Bool
  | absent => true
  | _ => false

/-- Whether a node stands in a place, be it of a construct or of none. -/
def isNode : Part α β → Bool
  | bare _ | node _ _ => true
  | _ => false

/-- The entries of a list where something is. -/
def present (parts : List (Part α β)) : List (Part α β) := parts.filter fun p => !p.isAbsent

end Part

/-- What is no node in the fields of a `Node`. -/
inductive Leaf where
  | literal (v : Literal)
  | token (t : Token)
deriving DecidableEq, Repr

/-- The value of a literal in a field. -/
def Literal.toPart : Literal → Part Node Leaf
  | nil => .absent
  | v => .value (.literal v)

/-- A token in a field. -/
def Token.toPart (t : Token) : Part Node Leaf := .value (.token t)

namespace Node

mutual

/-- A node as a walk sees it. -/
def toPart : Node → Part Node Leaf
  | value v => v.toPart
  | n@(bare _) => .bare n
  | n@(literal v) => .node n [v.toPart]
  | n@(reference name) => .node n [name.toPart]
  | n@(assign name e) => .node n [name.toPart, e.toPart]
  | n@(unary operator right) => .node n [operator.toPart, right.toPart]
  | n@(binary left operator right) => .node n [left.toPart, operator.toPart, right.toPart]
  | n@(group inner) => .node n [inner.toPart]
  | n@(expression e) => .node n [e.toPart]
  | n@(print e) => .node n [e.toPart]
  | n@(declare name initial) => .node n [name.toPart, initial.toPart]
  | n@(block items) => .node n [.sequence (toParts items)]

/-- Nodes as a walk sees them. -/
def toParts : List Node → List (Part Node Leaf)
  | [] => []
  | n :: rest => n.toPart :: toParts rest

end

end Node

/-! ### Walks -/

/-- What happens at a node on a walk. -/
inductive Visit (α : Type := Node) where
  /-- The node was entered: its children come next. -/
  | entered (n : α)
  /-- The node was closed, and its children are left out. -/
  | closed (n : α)
deriving DecidableEq, Repr

/-- A walk: the visits in order, and what ended it early since it is not the node of a construct. -/
structure Walk (α β : Type) where
  visits : List (Visit α) := []
  fault : Option (Part α β) := none
deriving Repr

namespace Walk

variable {α β : Type}

/-- Goes on with another walk, unless a fault has ended this one. -/
def andThen (first second : Walk α β) : Walk α β :=
  match first.fault with
  | some _ => first
  | none => ⟨first.visits ++ second.visits, second.fault⟩

/-- Visits a node: the walk through its fields follows, unless the node is closed. -/
def visit (isClosed : α → Bool) (n : α) (fields : Walk α β) : Walk α β :=
  if isClosed n then ⟨[.closed n], none⟩ else andThen ⟨[.entered n], none⟩ fields

/-- The walk through what stands in a node's place inside a tree, given the walk through it: a value
is passed over. -/
def child (p : Part α β) (walk : Walk α β) : Walk α β := if p.isNode then walk else {}

mutual

/-- The walk through a part, which should be a node of a construct. -/
def ofPart (isClosed : α → Bool) : Part α β → Walk α β
  | .node n fields => visit isClosed n (ofFields isClosed fields)
  | p => ⟨[], some p⟩

/-- The walk through the fields of a node.  A sequence stands for its items. -/
def ofFields (isClosed : α → Bool) : List (Part α β) → Walk α β
  | [] => {}
  | .sequence items :: rest => (ofItems isClosed items).andThen (ofFields isClosed rest)
  | p :: rest => (child p (ofPart isClosed p)).andThen (ofFields isClosed rest)

/-- The walk through the items of a sequence. -/
def ofItems (isClosed : α → Bool) : List (Part α β) → Walk α β
  | [] => {}
  | p :: rest => (child p (ofPart isClosed p)).andThen (ofItems isClosed rest)

end

/-- The walk through a list of parts. -/
def ofParts (isClosed : α → Bool) : List (Part α β) → Walk α β
  | [] => {}
  | p :: rest => (ofPart isClosed p).andThen (ofParts isClosed rest)

/-- The walk through the entries of a program, without the absent ones. -/
def ofEntries (isClosed : α → Bool) (entries : List (Part α β)) : Walk α β :=
  ofParts isClosed (Part.present entries)

/-- The walk through a program of nodes. -/
def ofProgram (isClosed : Node → Bool) (nodes : List Node) : Walk Node Leaf :=
  ofEntries isClosed (Node.toParts nodes)

/-- The names of the variables on a walk, in order. -/
def names (w : Walk Node Leaf) : List String :=
  w.visits.filterMap fun
    | .entered (.reference name) | .closed (.reference name) => some name.lexeme
    | _ => none

end Walk

/-! ### Faults -/

/-- What is no node, in a diagnosis. -/
def Leaf.description : Leaf → String
  | literal v => v.description
  | token t => t.description

namespace Part

mutual

/-- A part in a diagnosis. -/
def description : Part Node Leaf → String
  | absent => Literal.nil.description
  | value v => v.description
  | bare n => n.description
  | node n _ => n.description
  | sequence items => Node.sequence (descriptions items)

/-- Parts in a diagnosis. -/
def descriptions : List (Part Node Leaf) → List String
  | [] => []
  | p :: rest => p.description :: descriptions rest

end

/-- The message about what is not the node of a construct. -/
def message (p : Part Node Leaf) : String := "not an AST node: " ++ p.description

end Part

end LoxFront
