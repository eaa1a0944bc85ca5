import LoxFront.Proofs.Node.Printing
import LoxFront.Proofs.Tree.Statements
import Mathlib.Data.List.Forall2

/-!
# Both renderings are unambiguous

Programs with the same rendering are the same up to the places of their tokens and up to numbers that
are spelled alike (`renderings_are_unambiguous`).

A program in prefix form is a list of forms.  The text of its listing is read as lines in one way
(`Line.below_inj`), and the lines as entries in one way (`Program.lines_eq_iff`), since a gap has a line
of its own and no block goes on with the entry behind it.  So both renderings tell the forms of the
statements (`Program.forms_eq_iff`, `Program.listingText_eq_iff`), and the forms tell the statements.
-/

namespace LoxFront

open Parse

namespace Program

/-- The same entries one by one, with gaps at the same places. -/
def Alike (p q : Program) : Prop := List.Forall₂ (Option.Rel Stmt.Alike) p q

/-- The numbers of a program are finite. -/
def Finite (p : Program) : Prop := ∀ v ∈ p.literals, v.isFinite = true

/-- The lines of an entry of a program. -/
def entryLines : Option Stmt → List Line
  | none => [⟨1, "<error>".toList, []⟩]
  | some s => s.lines 1

variable {p q : Program}

theorem some_mem_of_mem_filterMap {s : Stmt} (h : s ∈ p.filterMap id) : some s ∈ p := by
  obtain ⟨o, ho, rfl⟩ := List.mem_filterMap.1 h
  exact ho

theorem readable_of_mem (hfrom : From IsScanned p) (hfin : Finite p) {s : Stmt} (h : some s ∈ p) :
    s.Readable := by
  refine ⟨hfrom s h, fun v hv => hfin v (List.mem_flatMap.2 ⟨s, ?_, hv⟩)⟩
  exact List.mem_filterMap.2 ⟨some s, h, rfl⟩

/-! ### Listings -/

/-- The text of a listing is that of its lines below the heading. -/
theorem toList_listingText (p : Program) :
    (listingText p).toList = "Program".toList ++ Line.below (p.flatMap entryLines) := by
  have hentry : ∀ o, (entryLines o).map Line.text = (entryListing o).map String.toList := by
    intro o
    cases o with
    | none => rfl
    | some s => exact s.text_lines 1
  have hlines : (p.flatMap entryListing).map String.toList =
      (p.flatMap entryLines).map Line.text := by
    rw [List.map_flatMap, List.map_flatMap]
    exact congrArg (List.flatMap · p) (funext fun o => (hentry o).symm)
  rw [listingText, String.toList_intercalate, listing, List.map_cons, hlines]
  exact Line.intercalate_text _ _

theorem proper_entryLines (h : From IsScanned p) : ∀ l ∈ p.flatMap entryLines, l.Proper := by
  intro l hl
  obtain ⟨o, ho, hl⟩ := List.mem_flatMap.1 hl
  cases o with
  | none =>
    rw [List.mem_singleton.1 hl]
    exact Stmt.proper_line 1 (by decide) trivial
  | some s => exact s.proper_lines 1 (h s ho) l hl

/-- An entry begins with a line at the first level, which tells whether it is a gap. -/
theorem exists_entryLines_cons (o : Option Stmt) :
    ∃ l rest, entryLines o = l :: rest ∧ l.level = 1 ∧ (l.head = "<error>".toList ↔ o = none) := by
  cases o with
  | none => exact ⟨_, [], rfl, rfl, iff_of_true rfl rfl⟩
  | some s =>
    obtain ⟨l, rest, hl, hlevel, hhead⟩ := s.exists_lines_cons 1
    exact ⟨l, rest, hl, hlevel, iff_of_false hhead nofun⟩

/-- No block goes on with the entries of a program. -/
theorem outside_flatMap (p : Program) : Stmt.Outside 2 (p.flatMap entryLines) := by
  cases p with
  | nil => exact fun _ h => by cases h
  | cons o p =>
    obtain ⟨l, rest, hl, hlevel, -⟩ := exists_entryLines_cons o
    rw [List.flatMap_cons, hl]
    rintro l' hl'
    cases hl'
    omega

theorem flatMap_entryLines_cons_ne_nil (o : Option Stmt) (p : Program) :
    (o :: p).flatMap entryLines ≠ [] := by
  obtain ⟨l, rest, hl, -⟩ := exists_entryLines_cons o
  rw [List.flatMap_cons, hl]
  exact List.cons_ne_nil _ _

/-- The forms of the entries of a program; a gap has none. -/
def entryForms (p : Program) : List (Option Form) :=
  List.map (Option.map Stmt.toForm) p

/-- Lines are read as a program in one way only. -/
theorem lines_eq_iff : p.flatMap entryLines = q.flatMap entryLines ↔ entryForms p = entryForms q := by
  induction p generalizing q with
  | nil =>
    cases q with
    | nil => exact iff_of_true rfl rfl
    | cons o q => exact iff_of_false (flatMap_entryLines_cons_ne_nil o q).symm nofun
  | cons o p ih =>
    cases q with
    | nil => exact iff_of_false (flatMap_entryLines_cons_ne_nil o p) nofun
    | cons o' q =>
      have hcons : entryForms (o :: p) = entryForms (o' :: q) ↔
          o.map Stmt.toForm = o'.map Stmt.toForm ∧ entryForms p = entryForms q := List.cons_eq_cons
      rw [hcons, List.flatMap_cons, List.flatMap_cons, ← ih]
      constructor
      · intro h
        have hgap : o = none ↔ o' = none := by
          obtain ⟨l, rest, hl, -, hnone⟩ := exists_entryLines_cons o
          obtain ⟨l', rest', hl', -, hnone'⟩ := exists_entryLines_cons o'
          rw [hl, hl'] at h
          rw [← hnone, ← hnone', (List.cons.inj h).1]
        cases o with
        | none =>
          obtain rfl := hgap.1 rfl
          exact ⟨rfl, (List.cons.inj h).2⟩
        | some s =>
          obtain ⟨t, rfl⟩ := Option.ne_none_iff_exists'.1 fun ho => nomatch hgap.2 ho
          obtain ⟨hst, htail⟩ := s.lines_append_inj t 1 (outside_flatMap p) (outside_flatMap q) h
          exact ⟨congrArg some hst, htail⟩
      · rintro ⟨ho, hrest⟩
        rw [hrest]
        cases o with
        | none =>
          cases o' with
          | none => rfl
          | some t => cases ho
        | some s =>
          cases o' with
          | none => cases ho
          | some t => rw [entryLines, entryLines, s.lines_eq_of_toForm_eq 1 t (Option.some.inj ho)]

/-- **A listing is read as a program in one way only.** -/
theorem listingText_eq_iff (hp : From IsScanned p) (hq : From IsScanned q) :
    listingText p = listingText q ↔ entryForms p = entryForms q := by
  rw [← String.toList_inj, toList_listingText, toList_listingText, List.append_cancel_left_eq,
    ← lines_eq_iff]
  refine ⟨fun h => ?_, fun h => by rw [h]⟩
  exact Line.below_inj (proper_entryLines hp) (proper_entryLines hq) h

/-! ### Prefix forms -/

/-- Lists are mapped to the same list if what is paired in them is. -/
theorem map_eq_map_iff {α β : Type} {f : α → β} {R : α → α → Prop} {xs ys : List α}
    (h : ∀ x ∈ xs, ∀ y ∈ ys, (f x = f y ↔ R x y)) : xs.map f = ys.map f ↔ List.Forall₂ R xs ys := by
  rw [← List.forall₂_eq_eq_eq, List.forall₂_map_left_iff, List.forall₂_map_right_iff,
    List.forall₂_iff_zip, List.forall₂_iff_zip]
  refine and_congr_right fun _ => forall_congr' fun x => forall_congr' fun y =>
    forall_congr' fun hxy => ?_
  obtain ⟨hx, hy⟩ := List.of_mem_zip hxy
  exact h x hx y hy

/-- **Prefix forms are read as statements in one way only.** -/
theorem forms_eq_iff (hp : From IsScanned p) (hq : From IsScanned q) :
    forms p = forms q ↔ (p.filterMap id).map Stmt.toForm = (q.filterMap id).map Stmt.toForm := by
  have hfromp : ∀ s ∈ p.filterMap id, s.From IsScanned :=
    fun s hs => hp s (some_mem_of_mem_filterMap hs)
  have hfromq : ∀ s ∈ q.filterMap id, s.From IsScanned :=
    fun s hs => hq s (some_mem_of_mem_filterMap hs)
  have hform : ∀ {s t : Stmt}, s.From IsScanned → t.From IsScanned →
      (s.form = t.form ↔ s.toForm = t.toForm) := by
    intro s t hs ht
    rw [← String.toList_inj, ← s.text_toForm, ← t.text_toForm,
      Form.text_inj (s.proper_toForm hs) (t.proper_toForm ht)]
  rw [forms, forms, map_eq_map_iff fun s hs t ht => hform (hfromp s hs) (hfromq t ht)]
  exact (map_eq_map_iff fun _ _ _ _ => Iff.rfl).symm

/-! ### From forms to programs -/

/-- The forms of the statements of a program. -/
theorem map_toForm_filterMap (p : Program) :
    (p.filterMap id).map Stmt.toForm = (entryForms p).filterMap id := by
  rw [entryForms, List.map_filterMap, List.filterMap_map]
  rfl

/-- Entries with finite numbers are alike if their forms are the same. -/
theorem entryForms_eq_iff (hp : ∀ s, some s ∈ p → s.Readable) (hq : ∀ s, some s ∈ q → s.Readable) :
    entryForms p = entryForms q ↔ Alike p q := by
  refine map_eq_map_iff fun o ho o' ho' => ?_
  cases o with
  | none =>
    cases o' with
    | none => exact iff_of_true rfl .none
    | some t => exact iff_of_false nofun nofun
  | some s =>
    cases o' with
    | none => exact iff_of_false nofun nofun
    | some t =>
      have hst := s.toForm_eq_iff t (hp s ho) (hq t ho')
      refine ⟨fun h => .some (hst.1 (Option.some.inj h)), fun h => ?_⟩
      cases h with
      | some h => exact congrArg some (hst.2 h)

end Program

namespace Parse

/-- **Both renderings are unambiguous.**  Whatever texts two programs with finite numbers are read from,
with or without errors, both are printed, in whatever state the printers are.  Their listings are the
same just if the programs have the same entries up to the places of tokens and the spelling of
numbers, with gaps at the same places, and their prefix forms just if they have the same statements. -/
theorem renderings_are_unambiguous (options options' : Options) (hook hook' : Hook)
    (text text' : String) (o o' : Outcome) (h : ofText options hook text = .ok o)
    (h' : ofText options' hook' text' = .ok o')
    (hfin : ∀ v ∈ Program.literals o.result.statements, v.isFinite = true)
    (hfin' : ∀ v ∈ Program.literals o'.result.statements, v.isFinite = true) :
    (∃ x y, (∀ printer, ∃ after,
        Printer.print (Program.toNodes o.result.statements) printer = .ok x after) ∧
      (∀ printer, ∃ after,
        Printer.print (Program.toNodes o'.result.statements) printer = .ok y after) ∧
      (x = y ↔ Program.Alike o.result.statements o'.result.statements)) ∧
    ∃ xs ys, Node.forms (Program.toNodes o.result.statements) = .ok xs ∧
      Node.forms (Program.toNodes o'.result.statements) = .ok ys ∧
      (xs = ys ↔ List.Forall₂ Stmt.Alike o.result.valid o'.result.valid) := by
  have hfrom := from_of_ofText h
  have hfrom' := from_of_ofText h'
  have hread := fun s => Program.readable_of_mem (s := s) hfrom hfin
  have hread' := fun s => Program.readable_of_mem (s := s) hfrom' hfin'
  refine ⟨⟨_, _, fun printer => ⟨_, Printer.print_toNodes _ printer⟩,
    fun printer => ⟨_, Printer.print_toNodes _ printer⟩, ?_⟩,
    _, _, Program.forms_toNodes _, Program.forms_toNodes _, ?_⟩
  · rw [Program.listingText_eq_iff hfrom hfrom', Program.entryForms_eq_iff hread hread']
  · rw [Program.forms_eq_iff hfrom hfrom']
    refine Program.map_eq_map_iff fun s hs t ht => s.toForm_eq_iff t (hread s ?_) (hread' t ?_)
    · exact Program.some_mem_of_mem_filterMap hs
    · exact Program.some_mem_of_mem_filterMap ht

/-- An assignment and the gap behind it, written at other places and with another spelling of the
number: the listings are the same, so the programs are alike. -/
theorem unambiguous_behind_an_assignment :
    ∃ o o', ofText {} {} "x = 1.0\n)" = .ok o ∧ ofText {} {} "\n x = 1;\n)" = .ok o' ∧
      o.result.statements ≠ o'.result.statements ∧
      Program.Alike o.result.statements o'.result.statements := by
  let x : Token := ⟨.identifier, "x", .nil, 1, 1⟩
  let y : Token := ⟨.identifier, "x", .nil, 2, 2⟩
  let one : Expr := .literal (.number (.finite false (2 ^ 52) (-52)))
  obtain ⟨o, ho, hp⟩ := exists_ofText {} {} "x = 1.0\n)"
    (p := [some (.expression (.assign x one)), none]) (by decide +kernel)
  obtain ⟨o', ho', hq⟩ := exists_ofText {} {} "\n x = 1;\n)"
    (p := [some (.expression (.assign y one)), none]) (by decide +kernel)
  obtain ⟨⟨u, v, hu, hv, hiff⟩, -⟩ := renderings_are_unambiguous {} {} {} {} _ _ o o' ho ho'
    (by rw [hp]; decide) (by rw [hq]; decide)
  refine ⟨o, o', ho, ho', by rw [hp, hq]; decide, hiff.1 ?_⟩
  obtain ⟨_, hu⟩ := hu {}
  obtain ⟨_, hv⟩ := hv {}
  rw [Printer.print_toNodes, hp] at hu
  rw [Printer.print_toNodes, hq] at hv
  cases hu
  cases hv
  decide +kernel

end Parse

end LoxFront
