import LoxFront.Node.Printer

/-!
# Printing the trees of programs

What has been read is never refused by a printer.  Unchecked trees may hold anything, but in the trees
of programs every node is in its place, so both printers give the renderings of the program, whatever
has been printed before: `Node.forms` its prefix forms (`forms_toNodes`), and `Printer.print` its
listing (`print_toNodes`).
-/

namespace LoxFront

/-! ### Prefix form -/

@[simp] theorem Expr.isAbsent_toNode (e : Expr) : e.toNode.isAbsent = false := by cases e <;> rfl

@[simp] theorem Stmt.isAbsent_toNode (s : Stmt) : s.toNode.isAbsent = false := by
  cases s with
  | declare name initial => cases initial <;> rfl
  | _ => rfl

theorem Expr.expressionForm_toNode (e : Expr) : e.toNode.expressionForm = .ok e.form := by
  induction e with
  | literal v => rfl
  | reference name => rfl
  | assign name value ih => rw [toNode, Node.expressionForm, ih]; rfl
  | unary operator right ih => rw [toNode, Node.expressionForm, ih]; rfl
  | binary left operator right ihl ihr => rw [toNode, Node.expressionForm, ihl, ihr]; rfl
  | group inner ih => rw [toNode, Node.expressionForm, ih]; rfl

theorem Expr.initialForm_toNode (before : String) (e : Expr) :
    Node.initialForm before e.toNode = .ok (before ++ e.form) := by
  rw [Node.initialForm, e.isAbsent_toNode, e.expressionForm_toNode]
  rfl

mutual

theorem Stmt.statementForm_toNode : (s : Stmt) → s.toNode.statementForm = .ok s.form
  | .expression e => by rw [toNode, Node.statementForm, e.expressionForm_toNode]; rfl
  | .print e => by rw [toNode, Node.statementForm, e.expressionForm_toNode]; rfl
  | .declare name none => by
    rw [toNode, Node.statementForm, Stmt.form]
    exact congrArg Except.ok (congrArg (· ++ ")") String.append_empty)
  | .declare name (some e) => by
    rw [toNode, Node.statementForm, e.initialForm_toNode, Stmt.form]
    simp only [String.append_assoc]
    rfl
  | .block items => by rw [toNode, Node.statementForm, Stmt.statementForms_toNodes items]; rfl

theorem Stmt.statementForms_toNodes : (items : List Stmt) →
    Node.statementForms (Stmt.toNodes items) = .ok (Stmt.forms items)
  | [] => rfl
  | s :: rest => by
    rw [toNodes, Node.statementForms, s.statementForm_toNode, Stmt.statementForms_toNodes rest]
    rfl

end

theorem Program.present_toNodes (p : Program) :
    Node.present p.toNodes = (p.filterMap id).map Stmt.toNode := by
  induction p with
  | nil => rfl
  | cons o p ih =>
    cases o with
    | none => exact ih
    | some s =>
      have hkept : Node.present (Program.toNodes (some s :: p)) =
          s.toNode :: Node.present (Program.toNodes p) :=
        List.filter_cons_of_pos (by simp [Program.entryNode])
      rw [hkept, ih]
      rfl

/-- **A program is never refused in prefix form.** -/
theorem Program.forms_toNodes (p : Program) : Node.forms p.toNodes = .ok p.forms := by
  rw [Node.forms, p.present_toNodes, Program.forms]
  induction p.filterMap id with
  | nil => rfl
  | cons s rest ih =>
    rw [List.map_cons, List.mapM_cons, s.statementForm_toNode, ih]
    rfl

/-! ### Listing -/

namespace Printer

/-- The printer after some more lines. -/
def wrote (p : Printer) (lines : List String) : Printer := { p with lines := p.lines ++ lines }

theorem modify_ok (f : Printer → Printer) (p : Printer) :
    (modify f : Step Unit) p = .ok () (f p) := rfl

theorem bind_of_ok {α β : Type} {x : Step α} {f : α → Step β} {p q : Printer} {a : α}
    (h : x p = .ok a q) : (x >>= f) p = f a q := by
  simp only [bind, EStateM.bind, h]

theorem emitForm_ok (before text : String) (p : Printer) :
    emitForm before (.ok text) p =
      .ok () (p.wrote [indentation p.level ++ (before ++ text)]) := rfl

theorem wrote_wrote (p : Printer) (lines more : List String) :
    (p.wrote lines).wrote more = p.wrote (lines ++ more) := by
  rw [wrote, wrote, wrote, List.append_assoc]

mutual

/-- Visiting a statement writes its lines. -/
theorem visit_toNode : (s : Stmt) → (p : Printer) →
    visit s.toNode p = .ok () (p.wrote (s.listing p.level))
  | .expression e, p => by
    rw [Stmt.toNode, visit, e.expressionForm_toNode, emitForm_ok, Stmt.listing, String.append_assoc]
  | .print e, p => by
    rw [Stmt.toNode, visit, e.expressionForm_toNode, emitForm_ok, Stmt.listing, String.append_assoc]
  | .declare name none, p => by
    have habsent : Node.initialForm " = " .absent = .ok "" := rfl
    rw [Stmt.toNode, visit, habsent, emitForm_ok, Stmt.listing, String.append_empty,
      String.append_assoc]
  | .declare name (some e), p => by
    rw [Stmt.toNode, visit, e.initialForm_toNode, emitForm_ok, Stmt.listing]
    simp only [String.append_assoc]
  | .block items, p => by
    have hitems := visitAll_toNodes items (p.emit "Block").indent
    rw [Stmt.toNode, visit, Stmt.listing, bind_of_ok (modify_ok _ _), bind_of_ok (modify_ok _ _),
      bind_of_ok hitems, modify_ok]
    refine congrArg (EStateM.Result.ok ()) ?_
    rw [wrote, wrote, ← List.singleton_append, ← List.append_assoc]
    rfl

/-- Visiting statements writes their lines. -/
theorem visitAll_toNodes : (items : List Stmt) → (p : Printer) →
    visitAll (Stmt.toNodes items) p = .ok () (p.wrote (Stmt.listings p.level items))
  | [], p => by rw [Stmt.listings, wrote, List.append_nil]; rfl
  | s :: rest, p => by
    have hrest := visitAll_toNodes rest (p.wrote (s.listing p.level))
    rw [Stmt.toNodes, visitAll, bind_of_ok (visit_toNode s p), hrest, wrote_wrote]
    rfl

end

/-- Printing the entries of a program at its level writes their lines. -/
theorem printEntries_toNodes (q : Program) {p : Printer} (hp : p.level = 1) :
    printEntries q.toNodes p = .ok () (p.wrote (q.flatMap Program.entryListing)) := by
  induction q generalizing p with
  | nil => rw [List.flatMap_nil, wrote, List.append_nil]; rfl
  | cons o q ih =>
    have hentry : printEntry (Program.entryNode o) p =
        .ok () (p.wrote (Program.entryListing o)) := by
      cases o with
      | none => rw [Program.entryListing, ← hp]; rfl
      | some s =>
        rw [Program.entryNode, printEntry, s.isAbsent_toNode, Program.entryListing, ← hp]
        exact visit_toNode s p
    have hnodes : Program.toNodes (o :: q) = Program.entryNode o :: Program.toNodes q := rfl
    rw [hnodes, printEntries, bind_of_ok hentry, ih (p := p.wrote _) hp, wrote_wrote,
      List.flatMap_cons]

/-- **A program is never refused by a printer**, and what was printed before leaves no trace. -/
theorem print_toNodes (q : Program) (p : Printer) :
    print q.toNodes p = .ok q.listingText ⟨q.listing, 0⟩ := by
  have hentries := printEntries_toNodes q (p := ⟨["Program"], 1⟩) rfl
  have hheading : (Printer.emit "Program" {}).indent = ⟨["Program"], 1⟩ := by decide
  have hlist : listProgram (printEntries q.toNodes) {} = .ok () ⟨q.listing, 0⟩ := by
    rw [listProgram, bind_of_ok (modify_ok _ _), bind_of_ok (modify_ok _ _), hheading,
      bind_of_ok hentries, modify_ok]
    rfl
  have hstart : (set ({} : Printer) : Step Unit) p = .ok () {} := rfl
  rw [print, onEmptyPage, bind_of_ok hstart, bind_of_ok hlist]
  rfl

end Printer

end LoxFront
