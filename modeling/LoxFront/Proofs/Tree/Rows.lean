import LoxFront.Proofs.Text.Lines
import LoxFront.Proofs.Tree.Unambiguous
import Mathlib.Algebra.GroupWithZero.Nat

/-!
# The rows of both renderings

A statement has one form, and the listing has one line for each statement, also within blocks, and for
each gap.  A form or a line is one row of the text, unless there is a literal in it with newlines: names,
operators and numbers have none (`Form.count_text`), but a text is spelled as it is.  So the listing has
as many rows as it has lines and its literals have newlines together (`Program.length_rows_listingText`).
-/

namespace LoxFront

open Lexical Parse

/-! ### Forms and lines -/

namespace Form

mutual

/-- The number of newlines that are quoted in a form. -/
def newlines : Form → Nat
  | word _ => 0
  | quoted s => s.count '\n'
  | node _ parts => allNewlines parts

/-- The number of newlines that are quoted in forms. -/
def allNewlines : List Form → Nat
  | [] => 0
  | f :: rest => f.newlines + allNewlines rest

end

theorem count_of_plain {w : List Char} (h : ∀ c ∈ w, isPlain c = true) : w.count '\n' = 0 :=
  List.count_eq_zero.2 fun hmem => absurd (h _ hmem) (by decide)

mutual

/-- **Newlines are quoted.** -/
theorem count_text : (f : Form) → f.Proper → f.text.count '\n' = f.newlines
  | word w, h => count_of_plain h.2
  | quoted s, _ => by simp [text, newlines]
  | node head parts, h => by
    simp [text, newlines, count_of_plain h.1, count_texts parts h.2]

theorem count_texts : (fs : List Form) → AllProper fs → (texts fs).count '\n' = allNewlines fs
  | [], _ => rfl
  | f :: rest, h => by simp [texts, allNewlines, count_text f h.1, count_texts rest h.2]

end

end Form

namespace Line

/-- The number of newlines that are quoted in a line. -/
def newlines (l : Line) : Nat := Form.allNewlines l.parts

theorem count_text {l : Line} (h : l.Proper) : l.text.count '\n' = l.newlines := by
  have hblanks : (List.replicate (2 * l.level) ' ').count '\n' = 0 :=
    List.count_eq_zero.2 fun hmem => absurd (List.eq_of_mem_replicate hmem) (by decide)
  rw [text, List.count_append, hblanks, List.count_append, Form.count_of_plain h.1.2,
    Form.count_texts _ h.2, newlines, Nat.zero_add, Nat.zero_add]

/-- There is a newline in front of each line, and there are those that are quoted. -/
theorem count_below {ls : List Line} (h : ∀ l ∈ ls, l.Proper) :
    (below ls).count '\n' = ls.length + (ls.map newlines).sum := by
  induction ls with
  | nil => rfl
  | cons l ls ih =>
    obtain ⟨hl, hls⟩ := List.forall_mem_cons.1 h
    rw [below, List.count_cons_self, List.count_append, count_text hl, ih hls, List.length_cons,
      List.map_cons, List.sum_cons]
    omega

end Line

/-! ### Trees -/

/-- The number of newlines in the text of a literal. -/
def Literal.newlines : Literal → Nat
  | .text s => s.toList.count '\n'
  | _ => 0

theorem Literal.newlines_toForm (v : Literal) : v.toForm.newlines = v.newlines := by
  cases v <;> rfl

/-- The number of newlines in the literals of an expression. -/
def Expr.newlines (e : Expr) : Nat := (e.literals.map Literal.newlines).sum

@[simp] theorem Expr.newlines_toForm (e : Expr) : e.toForm.newlines = e.newlines := by
  induction e with
  | literal v => exact v.newlines_toForm
  | reference name => rfl
  | _ => simp_all [toForm, Form.newlines, Form.allNewlines, newlines, literals]

namespace Stmt

/-- The number of newlines in the literals of a statement. -/
def newlines (s : Stmt) : Nat := (s.literals.map Literal.newlines).sum

@[simp] theorem newlines_expression (e : Expr) : (expression e).newlines = e.newlines := rfl

@[simp] theorem newlines_print (e : Expr) : (print e).newlines = e.newlines := rfl

@[simp] theorem newlines_declare (name : Token) (e : Expr) :
    (declare name (some e)).newlines = e.newlines := rfl

mutual

/-- The number of statements that a statement is made of: itself, and those of a block. -/
def nodes : Stmt → Nat
  | .block items => 1 + itemNodes items
  | _ => 1

/-- The number of statements that statements are made of. -/
def itemNodes : List Stmt → Nat
  | [] => 0
  | s :: rest => s.nodes + itemNodes rest

end

mutual

theorem newlines_toForm : (s : Stmt) → s.toForm.newlines = s.newlines
  | .expression e => by simp [toForm, Form.newlines, Form.allNewlines]
  | .print e => by simp [toForm, Form.newlines, Form.allNewlines]
  | .declare name none => rfl
  | .declare name (some e) => by simp [toForm, Form.newlines, Form.allNewlines]
  | .block items => newlines_toForms items

theorem newlines_toForms : (items : List Stmt) →
    Form.allNewlines (toForms items) = ((itemLiterals items).map Literal.newlines).sum
  | [] => rfl
  | s :: rest => by
    rw [toForms, Form.allNewlines, newlines_toForm s, newlines_toForms rest, itemLiterals,
      List.map_append, List.sum_append]
    rfl

end

mutual

/-- **The listing has a line for each statement.** -/
theorem length_lines (level : Nat) : (s : Stmt) → (s.lines level).length = s.nodes
  | .expression _ => rfl
  | .print _ => rfl
  | .declare _ _ => rfl
  | .block items => by
    rw [lines, List.length_cons, length_itemLines (level + 1) items, nodes, Nat.add_comm]

theorem length_itemLines (level : Nat) : (items : List Stmt) →
    (itemLines level items).length = itemNodes items
  | [] => rfl
  | s :: rest => by
    rw [itemLines, List.length_append, length_lines level s, length_itemLines level rest, itemNodes]

end

mutual

theorem newlines_lines (level : Nat) : (s : Stmt) →
    ((s.lines level).map Line.newlines).sum = s.newlines
  | .expression e => by simp [lines, Line.newlines, Form.allNewlines]
  | .print e => by simp [lines, Line.newlines, Form.allNewlines]
  | .declare name none => rfl
  | .declare name (some e) => by simp [lines, Line.newlines, Form.newlines, Form.allNewlines]
  | .block items => by
    rw [lines, List.map_cons, List.sum_cons, newlines_itemLines (level + 1) items]
    exact Nat.zero_add _

theorem newlines_itemLines (level : Nat) : (items : List Stmt) →
    ((itemLines level items).map Line.newlines).sum =
      ((itemLiterals items).map Literal.newlines).sum
  | [] => rfl
  | s :: rest => by
    rw [itemLines, List.map_append, List.sum_append, newlines_lines level s,
      newlines_itemLines level rest, itemLiterals, List.map_append, List.sum_append]
    rfl

end

/-- A statement in prefix form has as many newlines as its literals. -/
theorem count_form {s : Stmt} (h : s.From IsScanned) : s.form.toList.count '\n' = s.newlines := by
  rw [← s.text_toForm, Form.count_text _ (s.proper_toForm h), s.newlines_toForm]

end Stmt

/-! ### Programs -/

namespace Program

/-- The number of gaps in a program. -/
def gaps (p : Program) : Nat := p.countP Option.isNone

/-- The number of statements that a program is made of, those of blocks included. -/
def nodes (p : Program) : Nat := ((p.filterMap id).map Stmt.nodes).sum

/-- The number of newlines in the literals of a program. -/
def newlines (p : Program) : Nat := ((p.filterMap id).map Stmt.newlines).sum

theorem length_entryLines (p : Program) : (p.flatMap entryLines).length = p.gaps + p.nodes := by
  induction p with
  | nil => rfl
  | cons o p ih =>
    rw [List.flatMap_cons, List.length_append, ih]
    cases o with
    | none =>
      rw [show gaps (none :: p) = gaps p + 1 from List.countP_cons_of_pos rfl,
        show nodes (none :: p) = nodes p from rfl, entryLines, List.length_singleton]
      omega
    | some s =>
      rw [show gaps (some s :: p) = gaps p from List.countP_cons_of_neg Bool.false_ne_true,
        show nodes (some s :: p) = s.nodes + nodes p from rfl, entryLines, s.length_lines]
      omega

theorem newlines_entryLines (p : Program) :
    ((p.flatMap entryLines).map Line.newlines).sum = p.newlines := by
  induction p with
  | nil => rfl
  | cons o p ih =>
    rw [List.flatMap_cons, List.map_append, List.sum_append, ih]
    cases o with
    | none => exact Nat.zero_add _
    | some s =>
      rw [entryLines, s.newlines_lines]
      rfl

/-- **The rows of a listing**: the heading, one for each gap and each statement, and one more for each
newline in a literal. -/
theorem length_rows_listingText {p : Program} (h : From IsScanned p) :
    (Text.rows (listingText p).toList).length = 1 + p.gaps + p.nodes + p.newlines := by
  have hheading : "Program".toList.count '\n' = 0 := by decide +kernel
  rw [Text.length_rows, toList_listingText, List.count_append, hheading,
    Line.count_below (proper_entryLines h), length_entryLines, newlines_entryLines]
  omega

/-- **The rows of prefix forms**: one for each statement, and one more for each newline in a literal of
it. -/
theorem length_rows_forms {p : Program} (h : From IsScanned p) :
    List.Forall₂ (fun s form => (Text.rows form.toList).length = 1 + s.newlines) (p.filterMap id)
      p.forms := by
  rw [forms, List.forall₂_map_right_iff, List.forall₂_same]
  intro s hs
  rw [Text.length_rows, Stmt.count_form (h s (some_mem_of_mem_filterMap hs)), Nat.add_comm]

end Program

end LoxFront
