import LoxFront.Proofs.Tree.Unambiguous

/-!
# Equal trees and their renderings

Trees that compare equal have tokens of the same spellings at the same places, and equal values.  Their
numbers are the same, since a number that is read is known by its value; but a truth value is equal to
the number one or zero.  So the forms of equal trees are the same just if numbers stand in the same
places among their literals.  This goes from part to part, because equal trees have equally many
literals (`SortsTell`), and from forms to both renderings (`equal_programs_are_rendered_alike`).

Where one of the programs has a truth value in the place of a number, they are equal and their
renderings are not (`one_and_true_are_rendered_differently`).
-/

namespace LoxFront

open Grammar Lexical Parse

/-- Whether a literal is a number. -/
def Literal.isNumber : Literal → Bool
  | .number _ => true
  | .integer _ => true
  | _ => false

/-! ### Literals -/

namespace Literal

variable {v w : Literal}

/-- Numbers of texts that compare equal are the same. -/
theorem eq_of_agrees_number {ds fs ds' fs' : List Char}
    (h : (number (.ofDigits ds fs)).agrees (number (.ofDigits ds' fs')) = true) :
    Binary64.ofDigits ds fs = .ofDigits ds' fs' := by
  have hx := Binary64.ofDigits_canonical ds fs
  have hy := Binary64.ofDigits_canonical ds' fs'
  generalize Binary64.ofDigits ds fs = x at h hx
  generalize Binary64.ofDigits ds' fs' = y at h hy
  cases x with
  | nan => exact hx.elim
  | infinite s =>
    cases y with
    | nan => exact hy.elim
    | infinite t => rw [show s = false from hx, show t = false from hy]
    | finite t m e => cases h
  | finite s m e =>
    cases y with
    | nan => exact hy.elim
    | infinite t => cases h
    | finite t m' e' => exact Binary64.eq_of_units_eq hx hy rfl (congrArg some (eq_of_beq h).symm)

/-- Equal literals of texts that are of the same sort have the same form. -/
theorem toForm_eq_of_isNumber_eq (hv : v.Scanned) (hw : w.Scanned) (h : v.agrees w = true)
    (hsort : v.isNumber = w.isNumber) : v.toForm = w.toForm := by
  cases hv with
  | nil =>
    cases hw with
    | nil => rfl
    | _ => cases h
  | bool b =>
    cases hw with
    | bool c =>
      obtain rfl : b = c := by revert h; cases b <;> cases c <;> decide +kernel
      rfl
    | _ => first | cases h | cases hsort
  | text _ =>
    cases hw with
    | text _ => exact congrArg (fun s => (text s).toForm) (eq_of_beq h)
    | _ => cases h
  | number ds fs =>
    cases hw with
    | number ds' fs' => rw [eq_of_agrees_number h]
    | _ => first | cases h | cases hsort

/-- A number that is equal to a truth value is finite. -/
theorem isFinite_of_agrees_bool {x : Binary64} {b : Bool}
    (h : (number x).agrees (bool b) = true ∨ (bool b).agrees (number x) = true) :
    (number x).isFinite = true := by
  cases x with
  | finite s m e => rfl
  | infinite _ | nan => rcases h with h | h <;> cases h

/-- Equal literals of texts that have the same form are of the same sort. -/
theorem isNumber_eq_of_toForm_eq (hv : v.Scanned) (hw : w.Scanned) (h : v.agrees w = true)
    (hform : v.toForm = w.toForm) : v.isNumber = w.isNumber := by
  cases hv with
  | number ds fs =>
    cases hw with
    | number _ _ => rfl
    | bool b =>
      have hnumeral := isNumeral_ofDigits (isFinite_of_agrees_bool (.inl h))
      exact absurd hform.symm (toForm_ne_of_isNumeral hnumeral (.inr ⟨b, rfl⟩))
    | nil | text _ =>
      generalize Binary64.ofDigits ds fs = x at h
      cases x <;> cases h
  | bool b =>
    cases hw with
    | number ds fs =>
      have hnumeral := isNumeral_ofDigits (isFinite_of_agrees_bool (.inr h))
      exact absurd hform (toForm_ne_of_isNumeral hnumeral (.inr ⟨b, rfl⟩))
    | bool _ => rfl
    | _ => cases h
  | nil | text _ =>
    cases hw with
    | number _ _ => cases h
    | _ => rfl

end Literal

/-- The sorts of literals: which of them are numbers. -/
def sorts (vs : List Literal) : List Bool := vs.map Literal.isNumber

theorem sorts_append (vs ws : List Literal) : sorts (vs ++ ws) = sorts vs ++ sorts ws :=
  List.map_append

/-! ### What the sorts of literals tell -/

/-- The literals of two trees are equally many, and their sorts tell whether `P` holds: they are the same
just if it does. -/
def SortsTell (P : Prop) (vs ws : List Literal) : Prop :=
  vs.length = ws.length ∧ (P ↔ sorts vs = sorts ws)

namespace SortsTell

variable {P Q : Prop} {vs ws vs' ws' : List Literal}

theorem nil (h : P) : SortsTell P [] [] := ⟨rfl, iff_of_true h rfl⟩

theorem congr (h : SortsTell P vs ws) (hiff : Q ↔ P) : SortsTell Q vs ws := ⟨h.1, hiff.trans h.2⟩

/-- Equally many literals can be told apart from those behind them. -/
theorem append (h : SortsTell P vs ws) (h' : SortsTell Q vs' ws') :
    SortsTell (P ∧ Q) (vs ++ vs') (ws ++ ws') := by
  refine ⟨by rw [List.length_append, List.length_append, h.1, h'.1], ?_⟩
  have hlen : (sorts vs).length = (sorts ws).length := by
    rw [sorts, sorts, List.length_map, List.length_map, h.1]
  rw [h.2, h'.2, sorts_append, sorts_append]
  exact ⟨fun hboth => congrArg₂ _ hboth.1 hboth.2, fun hall => List.append_inj hall hlen⟩

end SortsTell

theorem Literal.sortsTell {v w : Literal} (hv : v.Scanned) (hw : w.Scanned)
    (h : v.agrees w = true) : SortsTell (v.toForm = w.toForm) [v] [w] :=
  ⟨rfl, fun hform => congrArg (fun sort => [sort]) (isNumber_eq_of_toForm_eq hv hw h hform),
    fun hsorts => toForm_eq_of_isNumber_eq hv hw h (List.cons.inj hsorts).1⟩

/-! ### Expressions -/

theorem Token.lexeme_eq_of_agrees {t u : Token} (h : t.agrees u = true) : t.lexeme = u.lexeme := by
  simp only [agrees, Bool.and_eq_true, beq_iff_eq] at h
  exact h.1.1.1.2

/-- **Equal expressions of texts have the same form just if their literals are of the same sorts.** -/
theorem Expr.sortsTell {e f : Expr} (he : e.From IsScanned) (hf : f.From IsScanned)
    (h : e.toNode.agrees f.toNode = true) :
    SortsTell (e.toForm = f.toForm) e.literals f.literals := by
  induction e generalizing f with
  | literal v =>
    obtain ⟨t, ht, hv⟩ := he
    cases f with
    | literal w =>
      obtain ⟨u, hu, hw⟩ := hf
      exact Literal.sortsTell (scanned_of_denotes hv ht) (scanned_of_denotes hw hu) h
    | _ => cases h
  | reference n =>
    cases f with
    | reference m => exact .nil (by rw [toForm, toForm, Token.lexeme_eq_of_agrees h])
    | _ => cases h
  | assign n v ih =>
    cases f with
    | assign m w =>
      obtain ⟨hname, hvalue⟩ := Bool.and_eq_true_iff.1 h
      exact (ih he.2 hf.2 hvalue).congr (by simp [toForm, Token.lexeme_eq_of_agrees hname])
    | _ => cases h
  | unary o r ih =>
    cases f with
    | unary o' r' =>
      obtain ⟨hoperator, hright⟩ := Bool.and_eq_true_iff.1 h
      exact (ih he.2 hf.2 hright).congr (by simp [toForm, Token.lexeme_eq_of_agrees hoperator])
    | _ => cases h
  | binary l o r ihl ihr =>
    cases f with
    | binary l' o' r' =>
      obtain ⟨hboth, hright⟩ := Bool.and_eq_true_iff.1 h
      obtain ⟨hleft, hoperator⟩ := Bool.and_eq_true_iff.1 hboth
      exact ((ihl he.1 hf.1 hleft).append (ihr he.2.2 hf.2.2 hright)).congr
        (by simp [toForm, Token.lexeme_eq_of_agrees hoperator])
    | _ => cases h
  | group e ih =>
    cases f with
    | group f => exact (ih (f := f) he hf h).congr (by simp [toForm])
    | _ => cases h

/-! ### Statements -/

namespace Stmt

/-- Equal declarations have initial values that are equal, or both have none. -/
theorem initial_of_agrees {n m : Token} {e f : Option Expr}
    (h : (declare n e).toNode.agrees (declare m f).toNode = true) :
    n.agrees m = true ∧ Option.Rel (fun e f => e.toNode.agrees f.toNode = true) e f := by
  cases e with
  | none =>
    cases f with
    | none => exact ⟨(Bool.and_eq_true_iff.1 h).1, .none⟩
    | some f => cases f <;> simp [toNode, Expr.toNode, Node.agrees, Node.absent] at h
  | some e =>
    cases f with
    | none => cases e <;> simp [toNode, Expr.toNode, Node.agrees, Node.absent] at h
    | some f => exact ⟨(Bool.and_eq_true_iff.1 h).1, .some (Bool.and_eq_true_iff.1 h).2⟩

mutual

/-- **Equal statements of texts have the same form just if their literals are of the same sorts.** -/
theorem sortsTell : (s t : Stmt) → s.From IsScanned → t.From IsScanned →
    s.toNode.agrees t.toNode = true → SortsTell (s.toForm = t.toForm) s.literals t.literals
  | .expression e, t, hs, ht, h => by
    cases t with
    | expression f => exact (Expr.sortsTell hs ht h).congr (by simp [toForm])
    | declare m f => cases f <;> cases h
    | _ => cases h
  | .print e, t, hs, ht, h => by
    cases t with
    | print f => exact (Expr.sortsTell hs ht h).congr (by simp [toForm])
    | declare m f => cases f <;> cases h
    | _ => cases h
  | .declare n e, t, hs, ht, h => by
    cases t with
    | declare m f =>
      obtain ⟨hname, hinitial⟩ := initial_of_agrees h
      have hlexeme := Token.lexeme_eq_of_agrees hname
      cases hinitial with
      | none => exact .nil (by rw [toForm, toForm, hlexeme])
      | some hvalue =>
        exact (Expr.sortsTell (hs.2 _ rfl) (ht.2 _ rfl) hvalue).congr (by simp [toForm, hlexeme])
    | _ => cases e <;> cases h
  | .block xs, t, hs, ht, h => by
    cases t with
    | block ys => exact (items_sortsTell xs ys hs ht h).congr (by simp [toForm])
    | declare m f => cases f <;> cases h
    | _ => cases h

theorem items_sortsTell : (xs ys : List Stmt) → ItemsFrom IsScanned xs → ItemsFrom IsScanned ys →
    Node.listsAgree (toNodes xs) (toNodes ys) = true →
      SortsTell (toForms xs = toForms ys) (itemLiterals xs) (itemLiterals ys)
  | [], [], _, _, _ => .nil rfl
  | s :: xs, t :: ys, hs, ht, h => by
    obtain ⟨hhead, htail⟩ := Bool.and_eq_true_iff.1 h
    exact ((sortsTell s t hs.1 ht.1 hhead).append (items_sortsTell xs ys hs.2 ht.2 htail)).congr
      (by simp [toForms])
  | [], _ :: _, _, _, h | _ :: _, [], _, _, h => by cases h

end

end Stmt

/-! ### Programs -/

namespace Program

variable {p q : Program}

/-- A gap is equal to a gap only, and a statement to a statement. -/
theorem entryNode_agrees {o o' : Option Stmt}
    (h : (entryNode o).agrees (entryNode o') = true) :
    Option.Rel (fun s t => s.toNode.agrees t.toNode = true) o o' := by
  have hgap : ∀ s : Stmt, Node.absent.agrees s.toNode = false ∧ s.toNode.agrees .absent = false := by
    intro s
    cases s with
    | declare name initial => cases initial <;> exact ⟨rfl, rfl⟩
    | _ => exact ⟨rfl, rfl⟩
  cases o with
  | none =>
    cases o' with
    | none => exact .none
    | some t => exact absurd h (by rw [entryNode, entryNode, (hgap t).1]; decide)
  | some s =>
    cases o' with
    | none => exact absurd h (by rw [entryNode, entryNode, (hgap s).2]; decide)
    | some t => exact .some h

/-- Equal programs have equal statements, and gaps at the same places. -/
theorem forall₂_of_listsAgree (h : Node.listsAgree (toNodes p) (toNodes q) = true) :
    List.Forall₂ (Option.Rel fun s t => s.toNode.agrees t.toNode = true) p q := by
  induction p generalizing q with
  | nil =>
    cases q with
    | nil => exact .nil
    | cons o' q => cases h
  | cons o p ih =>
    cases q with
    | nil => cases h
    | cons o' q =>
      obtain ⟨hentry, hrest⟩ := Bool.and_eq_true_iff.1 h
      exact .cons (entryNode_agrees hentry) (ih hrest)

theorem From.tail {o : Option Stmt} (h : From IsScanned (o :: p)) : From IsScanned p :=
  fun s hs => h s (List.mem_cons_of_mem _ hs)

/-- Where the gaps are at the same places, the forms of the statements tell those of the entries. -/
theorem entryForms_eq_iff_of_forall₂ {R : Stmt → Stmt → Prop}
    (h : List.Forall₂ (Option.Rel R) p q) : entryForms p = entryForms q ↔
      (p.filterMap id).map Stmt.toForm = (q.filterMap id).map Stmt.toForm := by
  refine ⟨fun hforms => by rw [map_toForm_filterMap, map_toForm_filterMap, hforms], fun hforms => ?_⟩
  induction h with
  | nil => rfl
  | cons ho _ ih =>
    cases ho with
    | none => exact congrArg (none :: ·) (ih hforms)
    | some _ =>
      obtain ⟨hhead, hrest⟩ := List.cons.inj hforms
      exact congrArg₂ (fun form rest => some form :: rest) hhead (ih hrest)

/-- **Equal programs of texts have the same forms just if their literals are of the same sorts.** -/
theorem sortsTell (hp : From IsScanned p) (hq : From IsScanned q)
    (h : List.Forall₂ (Option.Rel fun s t => s.toNode.agrees t.toNode = true) p q) :
    SortsTell ((p.filterMap id).map Stmt.toForm = (q.filterMap id).map Stmt.toForm)
      (literals p) (literals q) := by
  induction h with
  | nil => exact .nil rfl
  | cons ho _ ih =>
    have hrest := ih hp.tail hq.tail
    cases ho with
    | none => exact hrest
    | @some s t hst =>
      have hhead := s.sortsTell t (hp s List.mem_cons_self) (hq t List.mem_cons_self) hst
      exact (hhead.append hrest).congr List.cons_eq_cons

/-- **Equal programs have the same listing just if their literals are of the same sorts.** -/
theorem listingText_eq_iff_sorts (hp : From IsScanned p) (hq : From IsScanned q)
    (h : Node.listsAgree (toNodes p) (toNodes q) = true) :
    listingText p = listingText q ↔ sorts (literals p) = sorts (literals q) := by
  have hentries := forall₂_of_listsAgree h
  rw [listingText_eq_iff hp hq, entryForms_eq_iff_of_forall₂ hentries, (sortsTell hp hq hentries).2]

/-- **Equal programs have the same prefix forms just if their literals are of the same sorts.** -/
theorem forms_eq_iff_sorts (hp : From IsScanned p) (hq : From IsScanned q)
    (h : Node.listsAgree (toNodes p) (toNodes q) = true) :
    forms p = forms q ↔ sorts (literals p) = sorts (literals q) := by
  rw [forms_eq_iff hp hq, (sortsTell hp hq (forall₂_of_listsAgree h)).2]

end Program

namespace Parse

/-- **Equal programs are rendered alike, but for truth values.**  If the statements of two texts
compare equal, both of their renderings are the same just if numbers stand in the same places among
their literals. -/
theorem equal_programs_are_rendered_alike (options options' : Options) (hook hook' : Hook)
    (text text' : String) (o o' : Outcome) (h : ofText options hook text = .ok o)
    (h' : ofText options' hook' text' = .ok o')
    (hequal : Node.listsAgree (Program.toNodes o.result.statements)
      (Program.toNodes o'.result.statements) = true) :
    (∃ x y, (∀ printer, ∃ after,
        Printer.print (Program.toNodes o.result.statements) printer = .ok x after) ∧
      (∀ printer, ∃ after,
        Printer.print (Program.toNodes o'.result.statements) printer = .ok y after) ∧
      (x = y ↔ (Program.literals o.result.statements).map Literal.isNumber =
        (Program.literals o'.result.statements).map Literal.isNumber)) ∧
    ∃ xs ys, Node.forms (Program.toNodes o.result.statements) = .ok xs ∧
      Node.forms (Program.toNodes o'.result.statements) = .ok ys ∧
      (xs = ys ↔ (Program.literals o.result.statements).map Literal.isNumber =
        (Program.literals o'.result.statements).map Literal.isNumber) := by
  have hp := from_of_ofText h
  have hq := from_of_ofText h'
  exact ⟨⟨_, _, fun printer => ⟨_, Printer.print_toNodes _ printer⟩,
    fun printer => ⟨_, Printer.print_toNodes _ printer⟩,
    Program.listingText_eq_iff_sorts hp hq hequal⟩,
    _, _, Program.forms_toNodes _, Program.forms_toNodes _,
    Program.forms_eq_iff_sorts hp hq hequal⟩

/-- Two spellings of one number behind the same name: the statements are equal, and so are the
listings. -/
theorem one_and_one_point_zero_are_rendered_alike :
    ∃ o o' x, ofText {} {} "x = 1" = .ok o ∧ ofText {} {} "x = 1.0" = .ok o' ∧
      Node.listsAgree (Program.toNodes o.result.statements)
        (Program.toNodes o'.result.statements) = true ∧
      (∀ printer, ∃ after,
        Printer.print (Program.toNodes o.result.statements) printer = .ok x after) ∧
      ∀ printer, ∃ after,
        Printer.print (Program.toNodes o'.result.statements) printer = .ok x after := by
  let x : Token := ⟨.identifier, "x", .nil, 1, 1⟩
  let one : Expr := .literal (.number (.finite false (2 ^ 52) (-52)))
  obtain ⟨o, ho, hp⟩ := exists_ofText {} {} "x = 1"
    (p := [some (.expression (.assign x one))]) (by decide +kernel)
  obtain ⟨o', ho', hq⟩ := exists_ofText {} {} "x = 1.0"
    (p := [some (.expression (.assign x one))]) (by decide +kernel)
  have hequal : Node.listsAgree (Program.toNodes o.result.statements)
      (Program.toNodes o'.result.statements) = true := by
    rw [hp, hq]
    decide +kernel
  obtain ⟨⟨u, v, hu, hv, hiff⟩, -⟩ :=
    equal_programs_are_rendered_alike {} {} {} {} _ _ o o' ho ho' hequal
  obtain rfl := hiff.2 (by rw [hp, hq])
  exact ⟨o, o', u, ho, ho', hequal, hu, hv⟩

/-- A one and a truth value are equal statements, but neither rendering is the same. -/
theorem one_and_true_are_rendered_differently :
    ∃ o o', ofText {} {} "1" = .ok o ∧ ofText {} {} "true" = .ok o' ∧
      Node.listsAgree (Program.toNodes o.result.statements)
        (Program.toNodes o'.result.statements) = true ∧
      Node.forms (Program.toNodes o.result.statements) = .ok ["(expr 1)"] ∧
      Node.forms (Program.toNodes o'.result.statements) = .ok ["(expr true)"] ∧
      ∀ printer,
        (∃ after, Printer.print (Program.toNodes o.result.statements) printer =
          .ok "Program\n  Expr 1" after) ∧
        ∃ after, Printer.print (Program.toNodes o'.result.statements) printer =
          .ok "Program\n  Expr true" after := by
  let one : Program := [some (.expression (.literal (.number (.finite false (2 ^ 52) (-52)))))]
  let truth : Program := [some (.expression (.literal (.bool true)))]
  obtain ⟨o, ho, hp⟩ := exists_ofText {} {} "1" (p := one)
    (by decide +kernel)
  obtain ⟨o', ho', hq⟩ := exists_ofText {} {} "true" (p := truth)
    (by decide +kernel)
  have hone : Program.forms one = ["(expr 1)"] ∧
      Program.listingText one = "Program\n  Expr 1" := by decide +kernel
  have htruth : Program.forms truth = ["(expr true)"] ∧
      Program.listingText truth = "Program\n  Expr true" := by decide +kernel
  refine ⟨o, o', ho, ho', ?_, ?_, ?_, fun printer =>
    ⟨⟨⟨Program.listing one, 0⟩, ?_⟩, ⟨Program.listing truth, 0⟩, ?_⟩⟩
  · rw [hp, hq]
    decide +kernel
  · rw [hp, Program.forms_toNodes, hone.1]
  · rw [hq, Program.forms_toNodes, htruth.1]
  · rw [hp, Printer.print_toNodes, hone.2]
  · rw [hq, Printer.print_toNodes, htruth.2]

end Parse

end LoxFront
