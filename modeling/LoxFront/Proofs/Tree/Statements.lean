import LoxFront.Proofs.Tree.Alike

/-!
# Statements as forms and as lines

A statement in prefix form is the text of a form (`Stmt.text_toForm`).  For the statements of texts
this form is proper, and it says which statement it is if its numbers are finite
(`Stmt.toForm_eq_iff`).

In the listing a statement has lines (`Stmt.lines`).  They are read as statements by their levels: a
block goes on as long as the lines are on a higher level than its own (`Stmt.Outside`), so what comes
behind it does not matter (`Stmt.lines_append_inj`).
-/

namespace LoxFront

open Grammar Lexical Parse

/-! ### Statements in prefix form -/

namespace Stmt

mutual

/-- The form of a statement. -/
def toForm : Stmt → Form
  | .expression e => .node "expr".toList [e.toForm]
  | .print e => .node "print".toList [e.toForm]
  | .declare name initial =>
    .node "var".toList (.word name.lexeme.toList :: (initial.map Expr.toForm).toList)
  | .block items => .node "block".toList (toForms items)

/-- The forms of statements. -/
def toForms : List Stmt → List Form
  | [] => []
  | s :: rest => s.toForm :: toForms rest

end

mutual

theorem text_toForm : (s : Stmt) → s.toForm.text = s.form.toList
  | .expression e => by simp [toForm, form, Form.text, Form.texts, e.text_toForm]
  | .print e => by simp [toForm, form, Form.text, Form.texts, e.text_toForm]
  | .declare name none => by simp [toForm, form, Form.text, Form.texts]
  | .declare name (some e) => by simp [toForm, form, Form.text, Form.texts, e.text_toForm]
  | .block items => by simp [toForm, form, Form.text, texts_toForms items]

theorem texts_toForms : (items : List Stmt) → Form.texts (toForms items) = (forms items).toList
  | [] => by simp [toForms, forms, Form.texts]
  | s :: rest => by simp [toForms, forms, Form.texts, text_toForm s, texts_toForms rest]

end

theorem proper_name {name : Token} (h : IsScanned name ∧ name.kind = .identifier) :
    (Form.word name.lexeme.toList).Proper :=
  proper_word_of_isWord (isName_of_isScanned h.1 h.2).word

mutual

/-- The form of a statement of a text is proper. -/
theorem proper_toForm : (s : Stmt) → s.From IsScanned → s.toForm.Proper
  | .expression e, h => Form.proper_node (by decide) ⟨Expr.proper_toForm h, trivial⟩
  | .print e, h => Form.proper_node (by decide) ⟨Expr.proper_toForm h, trivial⟩
  | .declare name none, h => Form.proper_node (by decide) ⟨proper_name h.1, trivial⟩
  | .declare name (some e), h =>
    Form.proper_node (by decide) ⟨proper_name h.1, Expr.proper_toForm (h.2 e rfl), trivial⟩
  | .block items, h => Form.proper_node (by decide) (allProper_toForms items h)

theorem allProper_toForms : (items : List Stmt) → ItemsFrom IsScanned items →
    Form.AllProper (toForms items)
  | [], _ => trivial
  | s :: rest, h => ⟨proper_toForm s h.1, allProper_toForms rest h.2⟩

end

/-! ### From forms to statements -/

/-- A statement of a text whose numbers are finite. -/
def Readable (s : Stmt) : Prop := s.From IsScanned ∧ ∀ v ∈ s.literals, v.isFinite = true

/-- Statements of a text whose numbers are finite. -/
def ItemsReadable (items : List Stmt) : Prop :=
  ItemsFrom IsScanned items ∧ ∀ v ∈ itemLiterals items, v.isFinite = true

theorem itemsReadable_cons {s : Stmt} {rest : List Stmt} :
    ItemsReadable (s :: rest) ↔ s.Readable ∧ ItemsReadable rest := by
  have hliterals : (∀ v ∈ itemLiterals (s :: rest), v.isFinite = true) ↔ _ := List.forall_mem_append
  rw [ItemsReadable, hliterals, ItemsFrom, and_and_and_comm]
  rfl

theorem toForm_declare_inj {n m : Token} {e f : Option Expr} :
    (declare n e).toForm = (declare m f).toForm ↔
      n.lexeme.toList = m.lexeme.toList ∧ e.map Expr.toForm = f.map Expr.toForm := by
  cases e <;> cases f <;> simp [toForm]

mutual

/-- **The form of a statement of a text says which one it is**, if its numbers are finite. -/
theorem toForm_eq_iff : (s t : Stmt) → s.Readable → t.Readable →
    (s.toForm = t.toForm ↔ s.Alike t)
  | .expression e, t, hs, ht => by
    cases t with
    | expression f =>
      simp only [toForm, Form.node.injEq, List.cons.injEq, and_true, true_and]
      exact Expr.toForm_eq_iff hs.1 ht.1 hs.2 ht.2
    | _ => simp [toForm, Alike]
  | .print e, t, hs, ht => by
    cases t with
    | print f =>
      simp only [toForm, Form.node.injEq, List.cons.injEq, and_true, true_and]
      exact Expr.toForm_eq_iff hs.1 ht.1 hs.2 ht.2
    | _ => simp [toForm, Alike]
  | .declare n e, t, hs, ht => by
    cases t with
    | declare m f =>
      obtain ⟨⟨hn, he⟩, hfin⟩ := hs
      obtain ⟨⟨hm, hf⟩, hfin'⟩ := ht
      have hname := (isName_of_isScanned hn.1 hn.2).alike_iff (isName_of_isScanned hm.1 hm.2)
      refine toForm_declare_inj.trans (and_congr hname ?_)
      cases e with
      | none => cases f <;> simp
      | some e =>
        cases f with
        | none => simp
        | some f =>
          simp only [Option.map_some, Option.some.injEq, Option.rel_some_some]
          exact Expr.toForm_eq_iff (he e rfl) (hf f rfl) hfin hfin'
    | _ => simp [toForm, Alike]
  | .block xs, t, hs, ht => by
    cases t with
    | block ys =>
      simp only [toForm, Form.node.injEq, true_and]
      exact toForms_eq_iff xs ys hs ht
    | _ => simp [toForm, Alike]

theorem toForms_eq_iff : (xs ys : List Stmt) → ItemsReadable xs → ItemsReadable ys →
    (toForms xs = toForms ys ↔ ItemsAlike xs ys)
  | [], [], _, _ => iff_of_true rfl trivial
  | s :: xs, t :: ys, hs, ht => by
    obtain ⟨hs, hxs⟩ := itemsReadable_cons.1 hs
    obtain ⟨ht, hys⟩ := itemsReadable_cons.1 ht
    exact List.cons_eq_cons.trans
      (and_congr (toForm_eq_iff s t hs ht) (toForms_eq_iff xs ys hxs hys))
  | [], _ :: _, _, _ | _ :: _, [], _, _ => by simp [toForms, ItemsAlike]

end

/-! ### Statements in the listing -/

mutual

/-- The lines of a statement at a level. -/
def lines (level : Nat) : Stmt → List Line
  | .expression e => [⟨level, "Expr".toList, [e.toForm]⟩]
  | .print e => [⟨level, "Print".toList, [e.toForm]⟩]
  | .declare name initial =>
    [⟨level, "Var".toList, .word name.lexeme.toList ::
      (initial.map Expr.toForm).elim [] fun form => [.word ['='], form]⟩]
  | .block items => ⟨level, "Block".toList, []⟩ :: itemLines (level + 1) items

/-- The lines of statements at a level. -/
def itemLines (level : Nat) : List Stmt → List Line
  | [] => []
  | s :: rest => s.lines level ++ itemLines level rest

end

theorem toList_indentation (level : Nat) :
    (indentation level).toList = List.replicate (2 * level) ' ' := String.toList_ofList

mutual

theorem text_lines (level : Nat) : (s : Stmt) →
    (s.lines level).map Line.text = (s.listing level).map String.toList
  | .expression e => by
    simp [lines, listing, Line.text, Form.texts, toList_indentation, e.text_toForm]
  | .print e => by
    simp [lines, listing, Line.text, Form.texts, toList_indentation, e.text_toForm]
  | .declare name none => by
    simp [lines, listing, Line.text, Form.text, Form.texts, toList_indentation]
  | .declare name (some e) => by
    simp [lines, listing, Line.text, Form.text, Form.texts, toList_indentation, e.text_toForm]
  | .block items => by
    simp [lines, listing, Line.text, Form.texts, toList_indentation, text_itemLines (level + 1) items]

theorem text_itemLines (level : Nat) : (items : List Stmt) →
    (itemLines level items).map Line.text = (listings level items).map String.toList
  | [] => rfl
  | s :: rest => by
    rw [itemLines, listings, List.map_append, List.map_append, text_lines level s,
      text_itemLines level rest]

end

theorem proper_line (level : Nat) {head : String} {parts : List Form}
    (hhead : head.toList ≠ [] ∧ head.toList.all isPlain = true) (h : Form.AllProper parts) :
    (Line.mk level head.toList parts).Proper := ⟨⟨hhead.1, List.all_eq_true.1 hhead.2⟩, h⟩

mutual

/-- The lines of a statement of a text are proper. -/
theorem proper_lines (level : Nat) : (s : Stmt) → s.From IsScanned → ∀ l ∈ s.lines level, l.Proper
  | .expression e, h =>
    List.forall_mem_singleton.2 (proper_line level (by decide) ⟨Expr.proper_toForm h, trivial⟩)
  | .print e, h =>
    List.forall_mem_singleton.2 (proper_line level (by decide) ⟨Expr.proper_toForm h, trivial⟩)
  | .declare name none, h =>
    List.forall_mem_singleton.2 (proper_line level (by decide) ⟨proper_name h.1, trivial⟩)
  | .declare name (some e), h =>
    List.forall_mem_singleton.2 (proper_line level (by decide)
      ⟨proper_name h.1, Form.proper_word (by decide) (by decide), Expr.proper_toForm (h.2 e rfl),
        trivial⟩)
  | .block items, h =>
    List.forall_mem_cons.2
      ⟨proper_line level (by decide) trivial, proper_itemLines (level + 1) items h⟩

theorem proper_itemLines (level : Nat) : (items : List Stmt) → ItemsFrom IsScanned items →
    ∀ l ∈ itemLines level items, l.Proper
  | [], _ => List.forall_mem_nil _
  | s :: rest, h =>
    List.forall_mem_append.2 ⟨proper_lines level s h.1, proper_itemLines level rest h.2⟩

end

/-! ### From lines to statements -/

/-- The first of the lines, if there is one, is on a level below. -/
def Outside (level : Nat) (ls : List Line) : Prop := ∀ l ∈ ls.head?, l.level < level

/-- A statement begins with a line at its level. -/
theorem exists_lines_cons (level : Nat) (s : Stmt) :
    ∃ l rest, s.lines level = l :: rest ∧ l.level = level ∧ l.head ≠ "<error>".toList := by
  cases s <;> exact ⟨_, _, rfl, rfl, by simp⟩

theorem outside_itemLines {level : Nat} {ls : List Line} (items : List Stmt)
    (h : Outside level ls) : Outside (level + 1) (itemLines level items ++ ls) := by
  cases items with
  | nil => exact fun l hl => Nat.lt_succ_of_lt (h l hl)
  | cons s rest =>
    obtain ⟨l, more, hl, hlevel, -⟩ := exists_lines_cons level s
    rw [itemLines, hl]
    rintro l' hl'
    cases hl'
    omega

theorem not_outside_itemLines {level : Nat} {ls : List Line} {s : Stmt} {items : List Stmt} :
    ¬ Outside level (itemLines level (s :: items) ++ ls) := by
  obtain ⟨l, more, hl, hlevel, -⟩ := exists_lines_cons level s
  rw [itemLines, hl]
  intro h
  exact absurd (h l rfl) (by omega)

mutual

/-- **Lines are read as a statement in one way only**, whatever comes behind it outside. -/
theorem lines_append_inj : (s t : Stmt) → (level : Nat) → {ls ks : List Line} →
    Outside (level + 1) ls → Outside (level + 1) ks → s.lines level ++ ls = t.lines level ++ ks →
      s.toForm = t.toForm ∧ ls = ks
  | .expression e, t, level, ls, ks, _, _, h => by
    cases t with
    | expression f =>
      simp only [lines, List.singleton_append, List.cons.injEq, Line.mk.injEq, and_true,
        true_and] at h
      exact ⟨by rw [toForm, toForm, h.1], h.2⟩
    | _ => simp [lines] at h
  | .print e, t, level, ls, ks, _, _, h => by
    cases t with
    | print f =>
      simp only [lines, List.singleton_append, List.cons.injEq, Line.mk.injEq, and_true,
        true_and] at h
      exact ⟨by rw [toForm, toForm, h.1], h.2⟩
    | _ => simp [lines] at h
  | .declare n e, t, level, ls, ks, _, _, h => by
    cases t with
    | declare m f =>
      simp only [lines, List.singleton_append, List.cons.injEq, Line.mk.injEq, Form.word.injEq,
        true_and] at h
      obtain ⟨⟨hname, hinitial⟩, hrest⟩ := h
      have hform : e.map Expr.toForm = f.map Expr.toForm := by
        cases e <;> cases f <;> simp_all
      exact ⟨by rw [toForm, toForm, hname, hform], hrest⟩
    | _ => simp [lines] at h
  | .block xs, t, level, ls, ks, hls, hks, h => by
    cases t with
    | block ys =>
      obtain ⟨hitems, hrest⟩ := itemLines_append_inj xs ys (level + 1) hls hks (List.cons.inj h).2
      exact ⟨by rw [toForm, toForm, hitems], hrest⟩
    | _ => simp [lines] at h

theorem itemLines_append_inj : (xs ys : List Stmt) → (level : Nat) → {ls ks : List Line} →
    Outside level ls → Outside level ks → itemLines level xs ++ ls = itemLines level ys ++ ks →
      toForms xs = toForms ys ∧ ls = ks
  | [], [], _, _, _, _, _, h => ⟨rfl, h⟩
  | s :: xs, t :: ys, level, ls, ks, hls, hks, h => by
    rw [itemLines, itemLines, List.append_assoc, List.append_assoc] at h
    obtain ⟨hhead, hrest⟩ := lines_append_inj s t level (outside_itemLines xs hls)
      (outside_itemLines ys hks) h
    obtain ⟨hitems, rfl⟩ := itemLines_append_inj xs ys level hls hks hrest
    exact ⟨by rw [toForms, toForms, hhead, hitems], rfl⟩
  | [], t :: ys, level, ls, ks, hls, _, h => by
    have hls' : ls = itemLines level (t :: ys) ++ ks := h
    exact absurd (hls' ▸ hls) not_outside_itemLines
  | s :: xs, [], level, ls, ks, _, hks, h => by
    have hks' : ks = itemLines level (s :: xs) ++ ls := h.symm
    exact absurd (hks' ▸ hks) not_outside_itemLines

end

mutual

/-- Statements of the same form have the same lines. -/
theorem lines_eq_of_toForm_eq (level : Nat) : (s t : Stmt) → s.toForm = t.toForm →
    s.lines level = t.lines level
  | .expression e, t, h => by
    cases t with
    | expression f => rw [lines, lines, (List.cons.inj (Form.node.inj h).2).1]
    | _ => simp [toForm] at h
  | .print e, t, h => by
    cases t with
    | print f => rw [lines, lines, (List.cons.inj (Form.node.inj h).2).1]
    | _ => simp [toForm] at h
  | .declare n e, t, h => by
    cases t with
    | declare m f =>
      obtain ⟨hname, hinitial⟩ := toForm_declare_inj.1 h
      rw [lines, lines, hname, hinitial]
    | _ => simp [toForm] at h
  | .block xs, t, h => by
    cases t with
    | block ys =>
      rw [lines, lines, itemLines_eq_of_toForms_eq (level + 1) xs ys (Form.node.inj h).2]
    | _ => simp [toForm] at h

theorem itemLines_eq_of_toForms_eq (level : Nat) : (xs ys : List Stmt) → toForms xs = toForms ys →
    itemLines level xs = itemLines level ys
  | [], [], _ => rfl
  | s :: xs, t :: ys, h => by
    obtain ⟨hhead, hrest⟩ := List.cons.inj h
    rw [itemLines, itemLines, lines_eq_of_toForm_eq level s t hhead,
      itemLines_eq_of_toForms_eq level xs ys hrest]
  | [], _ :: _, h | _ :: _, [], h => by cases h

end

end Stmt

end LoxFront
