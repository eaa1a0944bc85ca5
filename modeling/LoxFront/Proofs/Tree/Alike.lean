import LoxFront.Proofs.Decimal.Canonical
import LoxFront.Proofs.Decimal.Spelling
import LoxFront.Proofs.Parse.Origin
import LoxFront.Proofs.Tree.Form
import LoxFront.Tree.Render

/-!
# Trees that differ in nothing but places

Two trees are alike if they are the same up to the places of their tokens and up to numbers that are
spelled alike (`Expr.Alike`, `Stmt.Alike`).

The text of an expression is the text of a form (`Expr.text_toForm`), and in the trees of texts this
form is proper (`Expr.proper_toForm`) and says which expression it is (`Expr.toForm_eq_iff`): a name is
not a reserved word and does not begin with a digit, an operator is known by its spelling, and a sign
in front of one operand is not between two.  Only the number `inf`, which stands for all that are too
large, could be taken for a name.
-/

namespace LoxFront

open Grammar Lexical Lexeme Parse

/-! ### Alike -/

/-- Tokens of the same kind, spelling and value, maybe at different places. -/
def Token.Alike (t u : Token) : Prop :=
  t.kind = u.kind ∧ t.lexeme = u.lexeme ∧ t.literal = u.literal

/-- The same value, or numbers that are spelled alike. -/
def Literal.Alike : Literal → Literal → Prop
  | .number x, .number y => (Literal.number x).spelling = (Literal.number y).spelling
  | v, w => v = w

/-- The same expression up to the places of tokens and the spelling of numbers. -/
def Expr.Alike : Expr → Expr → Prop
  | .literal v, .literal w => v.Alike w
  | .reference n, .reference m => n.Alike m
  | .assign n v, .assign m w => n.Alike m ∧ v.Alike w
  | .unary o r, .unary o' r' => o.Alike o' ∧ r.Alike r'
  | .binary l o r, .binary l' o' r' => l.Alike l' ∧ o.Alike o' ∧ r.Alike r'
  | .group e, .group f => e.Alike f
  | _, _ => False

mutual

/-- The same statement up to the places of tokens and the spelling of numbers. -/
def Stmt.Alike : Stmt → Stmt → Prop
  | .expression e, .expression f => e.Alike f
  | .print e, .print f => e.Alike f
  | .declare n e, .declare m f => n.Alike m ∧ Option.Rel Expr.Alike e f
  | .block xs, .block ys => Stmt.ItemsAlike xs ys
  | _, _ => False

/-- The same statements one by one. -/
def Stmt.ItemsAlike : List Stmt → List Stmt → Prop
  | [], [] => True
  | s :: xs, t :: ys => s.Alike t ∧ Stmt.ItemsAlike xs ys
  | _, _ => False

end

/-! ### Literals -/

/-- Whether a literal is no number or a finite one. -/
def Literal.isFinite : Literal → Bool
  | .number (.finite _ _ _) => true
  | .number _ => false
  | _ => true

/-- The literals of an expression from left to right. -/
def Expr.literals : Expr → List Literal
  | .literal v => [v]
  | .reference _ => []
  | .assign _ value => value.literals
  | .unary _ right => right.literals
  | .binary left _ right => left.literals ++ right.literals
  | .group inner => inner.literals

mutual

/-- The literals of a statement from left to right. -/
def Stmt.literals : Stmt → List Literal
  | .expression e => e.literals
  | .print e => e.literals
  | .declare _ initial => initial.elim [] Expr.literals
  | .block items => Stmt.itemLiterals items

/-- The literals of statements from left to right. -/
def Stmt.itemLiterals : List Stmt → List Literal
  | [] => []
  | s :: rest => s.literals ++ Stmt.itemLiterals rest

end

/-- The literals of a program from left to right. -/
def Program.literals (p : Program) : List Literal := (p.filterMap id).flatMap Stmt.literals

/-- The values of the literals of texts. -/
inductive Literal.Scanned : Literal → Prop
  | nil : Scanned .nil
  | bool (b : Bool) : Scanned (.bool b)
  | number (whole fraction : List Char) : Scanned (.number (.ofDigits whole fraction))
  | text {cs : List Char} : '"' ∉ cs → Scanned (.text (String.ofList cs))

/-- The kind of a lexeme is that of a mark only if it is one. -/
theorem mark_of_isLexeme {k : Kind} {w : List Char} {v : Literal} (h : IsLexeme k w v)
    (hk : Negates k ∨ ∃ b, Joins b k) : (w, k) ∈ marks ∧ v = .nil := by
  cases h with
  | mark hm => exact ⟨hm, rfl⟩
  | _ => rcases hk with hk | ⟨b, hk⟩ <;> cases hk

theorem scanned_of_denotes {t : Token} {v : Literal} (h : Denotes t v) (ht : IsScanned t) :
    v.Scanned := by
  have hmarks : ∀ x ∈ marks, x.2 ≠ .number ∧ x.2 ≠ .string := by decide
  cases h with
  | isTrue | isFalse => exact .bool _
  | isNil => exact .nil
  | number hk =>
    have hlex := ht (by rw [hk]; decide)
    rw [hk] at hlex
    generalize t.literal = v at hlex
    generalize t.lexeme.toList = w at hlex
    cases hlex with
    | whole _ | decimal _ _ => exact .number _ _
    | mark hm => exact absurd rfl (hmarks _ hm).1
  | string hk =>
    have hlex := ht (by rw [hk]; decide)
    rw [hk] at hlex
    generalize t.literal = v at hlex
    generalize t.lexeme.toList = w at hlex
    cases hlex with
    | string hq => exact .text hq
    | mark hm => exact absurd rfl (hmarks _ hm).2

/-! ### Names and operators -/

/-- A name of a text. -/
structure Token.IsName (t : Token) : Prop where
  kind : t.kind = .identifier
  literal : t.literal = .nil
  word : IsWord t.lexeme.toList
  unreserved (k : Keyword) : t.lexeme.toList ≠ k.spelling.toList

/-- An operator of a text. -/
structure Token.IsOperator (t : Token) : Prop where
  mark : (t.lexeme.toList, t.kind) ∈ marks
  literal : t.literal = .nil
  plain : ∀ c ∈ t.lexeme.toList, isPlain c = true
  ne_equal : t.lexeme.toList ≠ ['=']
  ne_group : t.lexeme.toList ≠ "group".toList

theorem isName_of_isScanned {t : Token} (ht : IsScanned t) (hk : t.kind = .identifier) :
    t.IsName := by
  have hlex := ht (by rw [hk]; decide)
  have hmarks : ∀ x ∈ marks, x.2 ≠ .identifier := by decide
  rw [hk] at hlex
  generalize hv : t.literal = v at hlex
  cases hlex with
  | name hw hne => exact ⟨hk, hv, hw, hne⟩
  | mark hm => exact absurd rfl (hmarks _ hm)

/-- What no operator in front of or between operands is. -/
theorem ne_of_operates {k : Kind} (h : Negates k ∨ ∃ b, Joins b k) :
    k ≠ .equal ∧ k ≠ .leftParen ∧ k ≠ .rightParen ∧ k ≠ .endOfInput := by
  rcases h with h | ⟨b, h⟩ <;> cases h <;> decide

theorem isOperator_of_isScanned {t : Token} (ht : IsScanned t)
    (hk : Negates t.kind ∨ ∃ b, Joins b t.kind) : t.IsOperator := by
  obtain ⟨hequal, hleft, hright, hend⟩ := ne_of_operates hk
  obtain ⟨hm, hv⟩ := mark_of_isLexeme (ht hend) hk
  have hmarks : ∀ x ∈ marks, (x.1 = ['='] → x.2 = .equal) ∧
      (x.2 ≠ .leftParen → x.2 ≠ .rightParen → x.1.all isPlain = true ∧ x.1 ≠ "group".toList) := by
    decide
  obtain ⟨hassign, hother⟩ := hmarks _ hm
  obtain ⟨hall, hgroup⟩ := hother hleft hright
  exact ⟨hm, hv, List.all_eq_true.1 hall, fun he => hequal (hassign he), hgroup⟩

/-- Names of the same spelling are alike. -/
theorem Token.IsName.alike_iff {t u : Token} (ht : t.IsName) (hu : u.IsName) :
    t.lexeme.toList = u.lexeme.toList ↔ t.Alike u :=
  ⟨fun h => ⟨ht.kind.trans hu.kind.symm, String.toList_inj.1 h, ht.literal.trans hu.literal.symm⟩,
    fun h => congrArg String.toList h.2.1⟩

/-- Operators of the same spelling are alike. -/
theorem Token.IsOperator.alike_iff {t u : Token} (ht : t.IsOperator) (hu : u.IsOperator) :
    t.lexeme.toList = u.lexeme.toList ↔ t.Alike u := by
  have hmarks : ∀ x ∈ marks, ∀ y ∈ marks, x.1 = y.1 → x.2 = y.2 := by decide
  refine ⟨fun h => ⟨hmarks _ ht.mark _ hu.mark h, String.toList_inj.1 h, ?_⟩, fun h =>
    congrArg String.toList h.2.1⟩
  exact ht.literal.trans hu.literal.symm

theorem isPlain_of_isNamePart {c : Char} (h : isNamePart c = true) : isPlain c = true := by
  by_contra hc
  simp only [isPlain, Bool.not_eq_true', Bool.not_eq_false, Bool.or_eq_true, decide_eq_true_eq] at hc
  rcases hc with (((rfl | rfl) | rfl) | rfl) | rfl <;> exact absurd h (by decide)

theorem isPlain_of_isNumeralPart {c : Char} (h : isNumeralPart c = true) : isPlain c = true := by
  by_contra hc
  simp only [isPlain, Bool.not_eq_true', Bool.not_eq_false, Bool.or_eq_true, decide_eq_true_eq] at hc
  rcases hc with (((rfl | rfl) | rfl) | rfl) | rfl <;> exact absurd h (by decide)

theorem proper_word_of_isWord {w : List Char} (h : IsWord w) : (Form.word w).Proper := by
  obtain ⟨c, cs, rfl, hc, hcs⟩ := h
  have hpart : isNamePart c = true := by
    simp only [isNameStart, Bool.or_eq_true, isNamePart, Char.isAlphanum] at hc ⊢
    exact hc.imp_left .inl
  refine ⟨List.cons_ne_nil _ _, List.forall_mem_cons.2 ⟨isPlain_of_isNamePart hpart, ?_⟩⟩
  exact fun d hd => isPlain_of_isNamePart (hcs d hd)

theorem proper_word_of_isNumeral {w : List Char} (h : IsNumeral w) : (Form.word w).Proper := by
  obtain ⟨⟨c, cs, rfl, -⟩, hall⟩ := h
  exact ⟨List.cons_ne_nil _ _, fun d hd => isPlain_of_isNumeralPart (hall d hd)⟩

/-- No word begins with a digit. -/
theorem not_isWord_of_isNumeral {w : List Char} (h : IsNumeral w) : ¬ IsWord w := by
  rintro ⟨c, cs, rfl, hc, -⟩
  obtain ⟨⟨d, ds, heq, hd⟩, -⟩ := h
  cases heq
  rw [isNameStart_of_isDigit hd] at hc
  cases hc

/-! ### Forms of expressions -/

/-- The form of a literal. -/
def Literal.toForm : Literal → Form
  | .text s => .quoted s.toList
  | v => .word v.spelling.toList

/-- The form of an expression. -/
def Expr.toForm : Expr → Form
  | .literal v => v.toForm
  | .reference name => .word name.lexeme.toList
  | .assign name value => .node ['='] [.word name.lexeme.toList, value.toForm]
  | .unary operator right => .node operator.lexeme.toList [right.toForm]
  | .binary left operator right => .node operator.lexeme.toList [left.toForm, right.toForm]
  | .group inner => .node "group".toList [inner.toForm]

theorem Literal.text_toForm (v : Literal) : v.toForm.text = v.spelling.toList := by
  cases v <;> simp [toForm, Form.text, spelling]

theorem Expr.text_toForm (e : Expr) : e.toForm.text = e.form.toList := by
  induction e with
  | literal v => exact v.text_toForm
  | _ => simp_all [toForm, form, Form.text, Form.texts]

/-! ### Literals and their forms -/

namespace Literal

variable {v w : Literal}

theorem toForm_ne_node (v : Literal) (head : List Char) (parts : List Form) :
    v.toForm ≠ .node head parts := by
  cases v <;> exact nofun

/-- A finite number of a text is spelled like one. -/
theorem isNumeral_ofDigits {ds fs : List Char} (h : (number (.ofDigits ds fs)).isFinite = true) :
    IsNumeral (number (.ofDigits ds fs)).spelling.toList := by
  have hcanonical := Binary64.ofDigits_canonical ds fs
  generalize Binary64.ofDigits ds fs = x at h hcanonical
  cases x with
  | finite s m e =>
    obtain ⟨rfl, -⟩ := hcanonical
    exact isNumeral_spelling m e
  | infinite _ | nan => cases h

/-- A literal that is neither a number nor a text is spelled like a reserved word. -/
theorem exists_keyword (h : v = .nil ∨ ∃ b, v = .bool b) :
    ∃ k : Keyword, v.toForm = .word k.spelling.toList := by
  rcases h with rfl | ⟨_ | _, rfl⟩
  · exact ⟨.kNil, rfl⟩
  · exact ⟨.kFalse, rfl⟩
  · exact ⟨.kTrue, rfl⟩

theorem proper_toForm (hv : v.Scanned) : v.toForm.Proper := by
  have hreserved : (v = .nil ∨ ∃ b, v = .bool b) → v.toForm.Proper := by
    intro h
    obtain ⟨k, hk⟩ := exists_keyword h
    rw [hk]
    exact proper_word_of_isWord (isWord_spelling k)
  cases hv with
  | nil => exact hreserved (.inl rfl)
  | bool b => exact hreserved (.inr ⟨b, rfl⟩)
  | text hq => rwa [toForm, String.toList_ofList]
  | number ds fs =>
    have hcanonical := Binary64.ofDigits_canonical ds fs
    generalize Binary64.ofDigits ds fs = x at hcanonical
    cases x with
    | finite s m e =>
      obtain ⟨rfl, -⟩ := hcanonical
      exact proper_word_of_isNumeral (isNumeral_spelling m e)
    | infinite s =>
      obtain rfl := hcanonical
      exact Form.proper_word (by decide) (by decide)
    | nan => exact hcanonical.elim

/-- A literal cannot be taken for a name, but for infinity. -/
theorem toForm_ne_name (hv : v.Scanned) (hfin : v.isFinite = true) {name : Token}
    (hn : name.IsName) : v.toForm ≠ .word name.lexeme.toList := by
  intro h
  have hreserved : ¬ (v = .nil ∨ ∃ b, v = .bool b) := by
    intro hv
    obtain ⟨k, hk⟩ := exists_keyword hv
    exact hn.unreserved k (Form.word.inj (h.symm.trans hk))
  cases hv with
  | nil => exact hreserved (.inl rfl)
  | bool b => exact hreserved (.inr ⟨b, rfl⟩)
  | text _ => cases h
  | number ds fs =>
    refine not_isWord_of_isNumeral (isNumeral_ofDigits hfin) ?_
    rw [Form.word.inj h]
    exact hn.word

/-- A finite number cannot be taken for a reserved word. -/
theorem toForm_ne_of_isNumeral {x : Binary64} (hx : IsNumeral (number x).spelling.toList)
    (hv : v = .nil ∨ ∃ b, v = .bool b) : v.toForm ≠ (number x).toForm := by
  intro h
  obtain ⟨k, hk⟩ := exists_keyword hv
  refine not_isWord_of_isNumeral hx ?_
  rw [Form.word.inj (h.symm.trans hk)]
  exact isWord_spelling k

theorem Alike.toForm_eq (h : v.Alike w) : v.toForm = w.toForm := by
  unfold Alike at h
  split at h
  · exact congrArg (fun spelling : String => Form.word spelling.toList) h
  · rw [h]

/-- The form of a finite literal of a text says which one it is. -/
theorem toForm_eq_iff (hv : v.Scanned) (hw : w.Scanned) (hfin : v.isFinite = true)
    (hfin' : w.isFinite = true) : v.toForm = w.toForm ↔ v.Alike w := by
  refine ⟨fun h => ?_, Alike.toForm_eq⟩
  cases hv with
  | text _ =>
    cases hw with
    | text _ => exact congrArg Literal.text (String.toList_inj.1 (Form.quoted.inj h))
    | _ => cases h
  | number ds fs =>
    have hnumeral := isNumeral_ofDigits hfin
    cases hw with
    | number ds' fs' => exact String.toList_inj.1 (Form.word.inj h)
    | text _ => cases h
    | nil => exact absurd h.symm (toForm_ne_of_isNumeral hnumeral (.inl rfl))
    | bool b => exact absurd h.symm (toForm_ne_of_isNumeral hnumeral (.inr ⟨b, rfl⟩))
  | nil =>
    cases hw with
    | nil => rfl
    | bool b => cases b <;> exact absurd (Form.word.inj h) (by decide)
    | number ds fs => exact absurd h (toForm_ne_of_isNumeral (isNumeral_ofDigits hfin') (.inl rfl))
    | text _ => cases h
  | bool b =>
    cases hw with
    | nil => cases b <;> exact absurd (Form.word.inj h) (by decide)
    | bool c =>
      cases b <;> cases c <;> first | rfl | exact absurd (Form.word.inj h) (by decide)
    | number ds fs =>
      exact absurd h (toForm_ne_of_isNumeral (isNumeral_ofDigits hfin') (.inr ⟨b, rfl⟩))
    | text _ => cases h

end Literal

/-! ### Expressions and their forms -/

namespace Expr

/-- The form of an expression of a text is proper. -/
theorem proper_toForm {e : Expr} (h : e.From IsScanned) : e.toForm.Proper := by
  induction e with
  | literal v =>
    obtain ⟨t, ht, hv⟩ := h
    exact Literal.proper_toForm (scanned_of_denotes hv ht)
  | reference name => exact proper_word_of_isWord (isName_of_isScanned h.1 h.2).word
  | assign name value ih =>
    have hname := isName_of_isScanned h.1.1 h.1.2
    exact Form.proper_node (by decide) ⟨proper_word_of_isWord hname.word, ih h.2, trivial⟩
  | unary operator right ih =>
    exact ⟨(isOperator_of_isScanned h.1.1 (.inl h.1.2)).plain, ih h.2, trivial⟩
  | binary left operator right ihl ihr =>
    obtain ⟨hl, ⟨ho, hj⟩, hr⟩ := h
    exact ⟨(isOperator_of_isScanned ho (.inr hj)).plain, ihl hl, ihr hr, trivial⟩
  | group inner ih => exact Form.proper_node (by decide) ⟨ih h, trivial⟩

/-- **The form of an expression of a text says which one it is**, if its numbers are finite. -/
theorem toForm_eq_iff {e f : Expr} (he : e.From IsScanned) (hf : f.From IsScanned)
    (hfin : ∀ v ∈ e.literals, v.isFinite = true) (hfin' : ∀ v ∈ f.literals, v.isFinite = true) :
    e.toForm = f.toForm ↔ e.Alike f := by
  induction e generalizing f with
  | literal v =>
    obtain ⟨t, ht, hv⟩ := he
    have hscanned := scanned_of_denotes hv ht
    have hfinite := hfin v List.mem_cons_self
    cases f with
    | literal w =>
      obtain ⟨u, hu, hw⟩ := hf
      exact Literal.toForm_eq_iff hscanned (scanned_of_denotes hw hu) hfinite
        (hfin' w List.mem_cons_self)
    | reference n =>
      have hn := isName_of_isScanned hf.1 hf.2
      exact iff_of_false (Literal.toForm_ne_name hscanned hfinite hn) id
    | _ => exact iff_of_false (v.toForm_ne_node _ _) id
  | reference n =>
    have hn := isName_of_isScanned he.1 he.2
    cases f with
    | literal w =>
      obtain ⟨u, hu, hw⟩ := hf
      exact iff_of_false (Literal.toForm_ne_name (scanned_of_denotes hw hu)
        (hfin' w List.mem_cons_self) hn).symm id
    | reference m =>
      exact (iff_of_eq (Form.word.injEq _ _)).trans (hn.alike_iff (isName_of_isScanned hf.1 hf.2))
    | _ => exact iff_of_false nofun id
  | assign n v ih =>
    have hn := isName_of_isScanned he.1.1 he.1.2
    cases f with
    | literal w => exact iff_of_false (w.toForm_ne_node _ _).symm id
    | assign m w =>
      simp only [toForm, Form.node.injEq, List.cons.injEq, Form.word.injEq, and_true, true_and]
      exact and_congr (hn.alike_iff (isName_of_isScanned hf.1.1 hf.1.2)) (ih he.2 hf.2 hfin hfin')
    | binary l o r =>
      have ho := isOperator_of_isScanned hf.2.1.1 (.inr hf.2.1.2)
      exact iff_of_false (fun h => ho.ne_equal (Form.node.inj h).1.symm) id
    | _ => simp [toForm, Alike]
  | unary o r ih =>
    have ho := isOperator_of_isScanned he.1.1 (.inl he.1.2)
    cases f with
    | literal w => exact iff_of_false (w.toForm_ne_node _ _).symm id
    | unary o' r' =>
      simp only [toForm, Form.node.injEq, List.cons.injEq, and_true]
      exact and_congr (ho.alike_iff (isOperator_of_isScanned hf.1.1 (.inl hf.1.2)))
        (ih he.2 hf.2 hfin hfin')
    | group f => exact iff_of_false (fun h => ho.ne_group (Form.node.inj h).1) id
    | _ => simp [toForm, Alike]
  | binary l o r ihl ihr =>
    have ho := isOperator_of_isScanned he.2.1.1 (.inr he.2.1.2)
    obtain ⟨hfl, hfr⟩ := List.forall_mem_append.1 hfin
    cases f with
    | literal w => exact iff_of_false (w.toForm_ne_node _ _).symm id
    | binary l' o' r' =>
      obtain ⟨hfl', hfr'⟩ := List.forall_mem_append.1 hfin'
      simp only [toForm, Form.node.injEq, List.cons.injEq, and_true]
      rw [ho.alike_iff (isOperator_of_isScanned hf.2.1.1 (.inr hf.2.1.2)), ihl he.1 hf.1 hfl hfl',
        ihr he.2.2 hf.2.2 hfr hfr']
      exact and_left_comm
    | assign m w => exact iff_of_false (fun h => ho.ne_equal (Form.node.inj h).1) id
    | _ => simp [toForm, Alike]
  | group e ih =>
    cases f with
    | literal w => exact iff_of_false (w.toForm_ne_node _ _).symm id
    | unary o r =>
      have ho := isOperator_of_isScanned hf.1.1 (.inl hf.1.2)
      exact iff_of_false (fun h => ho.ne_group (Form.node.inj h).1.symm) id
    | group f =>
      simp only [toForm, Form.node.injEq, List.cons.injEq, and_true, true_and]
      exact ih he hf hfin hfin'
    | _ => simp [toForm, Alike]

end Expr

end LoxFront
