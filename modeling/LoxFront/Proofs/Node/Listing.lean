import LoxFront.Proofs.Node.Printing
import LoxFront.Proofs.Tree.Preorder

/-!
# Listings go in pre-order

The listing of a program has a heading and one line for each gap and each statement, in pre-order.  A
line is indented by as many steps as there are on the path to what it is of: one into the program, and
one into each block around (`Program.lists_entryListing`).

A printer gives this listing whatever it was asked for before (`Operation`), even where a fault has left
some lines and some indentation behind: it begins with an empty page (`print_lists_in_preorder`).
-/

namespace LoxFront

open Forest

/-! ### Nodes in their places -/

namespace Node

/-- Whether a node is an expression, and so is what stands in the places of expressions below. -/
def isExpression : Node → Bool
  | literal _ | reference _ => true
  | assign _ e | unary _ e | group e => e.isExpression
  | binary left _ right => left.isExpression && right.isExpression
  | _ => false

mutual

/-- Whether a node is a statement, with statements and expressions in their places below.  A declaration
need not have an initial value. -/
def isStatement : Node → Bool
  | expression e | print e => e.isExpression
  | declare _ initial => initial.isAbsent || initial.isExpression
  | block items => areStatements items
  | _ => false

/-- Whether nodes are statements. -/
def areStatements : List Node → Bool
  | [] => true
  | n :: rest => n.isStatement && areStatements rest

end

/-- Whether a node may be an entry of a program: a statement, or nothing. -/
def isEntry (n : Node) : Bool := n.isAbsent || n.isStatement

theorem eq_absent {n : Node} (h : n.isAbsent = true) : n = absent := by
  cases n with
  | value v =>
    cases v with
    | nil => rfl
    | _ => cases h
  | _ => cases h

theorem exists_expr (n : Node) (h : n.isExpression = true) : ∃ e : Expr, e.toNode = n := by
  cases n with
  | literal v => exact ⟨.literal v, rfl⟩
  | reference name => exact ⟨.reference name, rfl⟩
  | assign name e =>
    obtain ⟨e, rfl⟩ := exists_expr e (by rwa [isExpression] at h)
    exact ⟨.assign name e, rfl⟩
  | unary operator right =>
    obtain ⟨right, rfl⟩ := exists_expr right (by rwa [isExpression] at h)
    exact ⟨.unary operator right, rfl⟩
  | binary left operator right =>
    rw [isExpression, Bool.and_eq_true] at h
    obtain ⟨left, rfl⟩ := exists_expr left h.1
    obtain ⟨right, rfl⟩ := exists_expr right h.2
    exact ⟨.binary left operator right, rfl⟩
  | group inner =>
    obtain ⟨inner, rfl⟩ := exists_expr inner (by rwa [isExpression] at h)
    exact ⟨.group inner, rfl⟩
  | _ => cases h

mutual

theorem exists_stmt (n : Node) (h : n.isStatement = true) : ∃ s : Stmt, s.toNode = n := by
  cases n with
  | expression e =>
    obtain ⟨e, rfl⟩ := exists_expr e (by rwa [isStatement] at h)
    exact ⟨.expression e, rfl⟩
  | print e =>
    obtain ⟨e, rfl⟩ := exists_expr e (by rwa [isStatement] at h)
    exact ⟨.print e, rfl⟩
  | declare name initial =>
    rw [isStatement, Bool.or_eq_true] at h
    rcases h with habsent | hexpression
    · obtain rfl := eq_absent habsent
      exact ⟨.declare name none, rfl⟩
    · obtain ⟨e, rfl⟩ := exists_expr initial hexpression
      exact ⟨.declare name (some e), rfl⟩
  | block items =>
    obtain ⟨items, rfl⟩ := exists_stmts items (by rwa [isStatement] at h)
    exact ⟨.block items, rfl⟩
  | _ => cases h

theorem exists_stmts : (nodes : List Node) → areStatements nodes = true →
    ∃ items, Stmt.toNodes items = nodes
  | [], _ => ⟨[], rfl⟩
  | n :: rest, h => by
    rw [areStatements, Bool.and_eq_true] at h
    obtain ⟨hn, hrest⟩ := h
    obtain ⟨s, rfl⟩ := exists_stmt n hn
    obtain ⟨items, rfl⟩ := exists_stmts rest hrest
    exact ⟨s :: items, rfl⟩

end

end Node

theorem Expr.isExpression_toNode (e : Expr) : e.toNode.isExpression = true := by
  induction e with
  | literal v => rfl
  | reference name => rfl
  | assign name value ih => exact ih
  | unary operator right ih => exact ih
  | binary left operator right ihl ihr => exact Bool.and_eq_true_iff.2 ⟨ihl, ihr⟩
  | group inner ih => exact ih

mutual

theorem Stmt.isStatement_toNode : (s : Stmt) → s.toNode.isStatement = true
  | .expression e => e.isExpression_toNode
  | .print e => e.isExpression_toNode
  | .declare _ none => rfl
  | .declare _ (some e) => Bool.or_eq_true_iff.2 (.inr e.isExpression_toNode)
  | .block items => Stmt.areStatements_toNodes items

theorem Stmt.areStatements_toNodes : (items : List Stmt) →
    Node.areStatements (Stmt.toNodes items) = true
  | [] => rfl
  | s :: rest => Bool.and_eq_true_iff.2 ⟨s.isStatement_toNode, Stmt.areStatements_toNodes rest⟩

end

/-- **The trees of programs** are those that have statements and expressions in their places. -/
theorem Program.exists_toNodes_iff {nodes : List Node} :
    (∃ q : Program, q.toNodes = nodes) ↔ nodes.all Node.isEntry = true := by
  constructor
  · rintro ⟨q, rfl⟩
    rw [toNodes, List.all_map, List.all_eq_true]
    rintro (_ | s) -
    · rfl
    · exact Bool.or_eq_true_iff.2 (.inr s.isStatement_toNode)
  · intro h
    induction nodes with
    | nil => exact ⟨[], rfl⟩
    | cons n rest ih =>
      obtain ⟨hn, hrest⟩ := Bool.and_eq_true_iff.1 h
      obtain ⟨q, rfl⟩ := ih hrest
      rcases Bool.or_eq_true_iff.1 hn with habsent | hstatement
      · obtain rfl := Node.eq_absent habsent
        exact ⟨none :: q, rfl⟩
      · obtain ⟨s, rfl⟩ := n.exists_stmt hstatement
        exact ⟨some s :: q, rfl⟩

/-! ### Lines in pre-order -/

namespace Program

/-- What is within an entry of a program: the items of a block. -/
def within : Option Stmt → List (Option Stmt)
  | some (.block items) => items.map some
  | _ => []

/-- The text of the line of a gap or of a statement. -/
def entryText : Option Stmt → String
  | none => "<error>"
  | some (.expression e) => "Expr " ++ e.form
  | some (.print e) => "Print " ++ e.form
  | some (.declare name none) => "Var " ++ name.lexeme
  | some (.declare name (some e)) => "Var " ++ name.lexeme ++ " = " ++ e.form
  | some (.block _) => "Block"

/-- The line of what stands at a place under a number of blocks. -/
def placeLine (around : Nat) (place : List Nat × Option Stmt) : String :=
  indentation (around + place.1.length) ++ entryText place.2

/-- Lines are those of the entries under a number of blocks, in pre-order. -/
def Lists (around : Nat) (entries : Program) (lines : List String) : Prop :=
  ∃ places, Traverses within entries places ∧ lines = places.map (placeLine around)

namespace Lists

variable {around : Nat} {q r : Program} {lines more : List String}

theorem nil : Lists around [] [] := ⟨[], .nil, rfl⟩

theorem append (h : Lists around q lines) (h' : Lists around r more) :
    Lists around (q ++ r) (lines ++ more) := by
  obtain ⟨places, hplaces, rfl⟩ := h
  obtain ⟨others, hothers, rfl⟩ := h'
  have hline : placeLine around ∘ Prod.map (shift q.length) id = placeLine around := by
    funext place
    simp [placeLine]
  refine ⟨_, hplaces.append hothers, ?_⟩
  rw [List.map_append, List.map_map, hline]

/-- The line of an entry comes in front of those within it, which have one more block around. -/
theorem singleton {o : Option Stmt} (h : Lists (around + 1) (within o) lines) :
    Lists around [o] ((indentation (around + 1) ++ entryText o) :: lines) := by
  obtain ⟨places, hplaces, rfl⟩ := h
  have hline : placeLine around ∘ Prod.map (List.cons 0) id = placeLine (around + 1) := by
    funext place
    simp [placeLine, Nat.add_assoc, Nat.add_comm 1]
  refine ⟨_, .singleton hplaces, ?_⟩
  rw [List.map_cons, List.map_map, hline]
  rfl

end Lists

mutual

theorem lists_listing (around : Nat) : (s : Stmt) →
    Lists around [some s] (s.listing (around + 1))
  | .expression _ | .print _ | .declare _ none => by
    rw [Stmt.listing, String.append_assoc]
    exact .singleton .nil
  | .declare name (some e) => by
    have htext : indentation (around + 1) ++ "Var " ++ name.lexeme ++ " = " ++ e.form =
        indentation (around + 1) ++ entryText (some (.declare name (some e))) := by
      simp only [entryText, String.append_assoc]
    rw [Stmt.listing, htext]
    exact .singleton .nil
  | .block items => by
    rw [Stmt.listing]
    exact .singleton (lists_listings (around + 1) items)

theorem lists_listings (around : Nat) : (items : List Stmt) →
    Lists around (items.map some) (Stmt.listings (around + 1) items)
  | [] => .nil
  | s :: rest => (lists_listing around s).append (lists_listings around rest)

end

/-- **The lines of a program** are those of its gaps and statements in pre-order. -/
theorem lists_entryListing (q : Program) : Lists 0 q (q.flatMap entryListing) := by
  induction q with
  | nil => exact .nil
  | cons o q ih =>
    rw [List.flatMap_cons]
    refine Lists.append (q := [o]) ?_ ih
    cases o with
    | none => exact .singleton .nil
    | some s => exact lists_listing 0 s

end Program

/-! ### Printers in use -/

namespace Printer

/-- What a printer may be asked for. -/
inductive Operation where
  | print (nodes : List Node)
  | printNode (n : Node)
  | visit (n : Node)
  | visitProgram (nodes : List Node)
  | emit (text : String)
  | indent
  | dedent

/-- The printer that a step leaves behind, also when it comes upon a fault. -/
def left {α : Type} : EStateM.Result NodeFault Printer α → Printer
  | .ok _ p => p
  | .error _ p => p

namespace Operation

/-- What an operation does, apart from its value. -/
def step : Operation → Step Unit
  | print nodes => do let _ ← Printer.print nodes
  | printNode n => do let _ ← Printer.printNode n
  | visit n => Printer.visit n
  | visitProgram nodes => do let _ ← Printer.visitProgram nodes
  | emit text => modify (Printer.emit text)
  | indent => modify Printer.indent
  | dedent => modify Printer.dedent

/-- The printer behind operations.  Each begins where the one in front ended, however it did. -/
def after (operations : List Operation) (p : Printer) : Printer :=
  operations.foldl (fun p o => left (o.step p)) p

end Operation

/-- An item that is missing from a block leaves the heading of the block and its indentation behind. -/
example : Operation.after [.visit (.block [.absent])] {} = ⟨["Block"], 1⟩ := by decide

/-- A page is empty when it is begun, whatever was there before. -/
theorem onEmptyPage_eq (write : Step Unit) (p q : Printer) :
    onEmptyPage write p = onEmptyPage write q := rfl

theorem printNode_eq (n : Node) (p q : Printer) : printNode n p = printNode n q := by
  cases n with
  | value v => cases v <;> exact onEmptyPage_eq _ p q
  | _ => exact onEmptyPage_eq _ p q

/-- **A printer lists a program in pre-order**, whatever it was asked for before: a heading, and one line
for each gap and each statement, indented by the length of the path to it.  Whatever else it is to print,
it does the same as a new printer, also when it comes upon a fault. -/
theorem print_lists_in_preorder (past : List Operation) (start : Printer) :
    (∀ nodes : List Node, nodes.all Node.isEntry = true ↔ ∃ q : Program, q.toNodes = nodes) ∧
    (∀ q : Program, ∃ places lines, Traverses Program.within q places ∧
      lines = "Program" :: places.map (fun p => indentation p.1.length ++ Program.entryText p.2) ∧
      print q.toNodes (Operation.after past start) = .ok ("\n".intercalate lines) ⟨lines, 0⟩) ∧
    (∀ nodes, print nodes (Operation.after past start) = print nodes {}) ∧
    ∀ n, printNode n (Operation.after past start) = printNode n {} := by
  refine ⟨fun _ => Program.exists_toNodes_iff.symm, fun q => ?_, fun _ => onEmptyPage_eq _ _ _,
    fun n => printNode_eq n _ _⟩
  obtain ⟨places, hplaces, hlines⟩ := q.lists_entryListing
  have hline : Program.placeLine 0 =
      fun p => indentation p.1.length ++ Program.entryText p.2 := by
    funext p
    rw [Program.placeLine, Nat.zero_add]
  refine ⟨places, _, hplaces, rfl, ?_⟩
  rw [print_toNodes, Program.listingText, Program.listing, hlines, hline]

end Printer

end LoxFront
