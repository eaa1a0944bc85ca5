import LoxFront.Proofs.Parse.Budget
import LoxFront.Proofs.Parse.Reports
import LoxFront.Proofs.Parse.Simulation

/-!
# Blank lines, and line ends or semicolons

Line ends are passed in four places: in front of a program, behind the brace that opens a block, at
the end of a statement, and in recovery.  Nowhere else is a line end told from a semicolon.  Hence two
streams give the same if they differ only in a place where all of the line ends are passed, or in the
first token of what ends a statement (`Parted`); not even errors make a difference, since a statement
never begins at such a token.

So a blank line does not matter (`LineAdded`), and neither does the choice between a line end and a
semicolon (`LineReplaced`), in whatever program (`separators_do_not_matter`).
-/

namespace LoxFront.Parse

/-! ### Cursors around a separator -/

/-- The kinds of tokens between statements. -/
def Separates (k : Kind) : Prop := k = .endOfLine ∨ k = .semicolon

instance (k : Kind) : Decidable (Separates k) :=
  inferInstanceAs (Decidable (k = .endOfLine ∨ k = .semicolon))

/-- The kinds of tokens behind which line ends are passed. -/
def PassesLines (k : Kind) : Prop := Separates k ∨ k = .leftBrace

instance (k : Kind) : Decidable (PassesLines k) :=
  inferInstanceAs (Decidable (Separates k ∨ k = .leftBrace))

theorem Separates.not_taken {k : Kind} (h : Separates k) : ¬ Taken k := by
  rintro ⟨hline, hsemi, -⟩
  exact h.elim hline hsemi

theorem Separates.ne_end {k : Kind} (h : Separates k) : k ≠ .endOfInput := by
  rintro rfl
  exact absurd h (by decide)

theorem Separates.not_startsStatement {k : Kind} (h : Separates k) : k.startsStatement = false := by
  rcases h with rfl | rfl <;> rfl

/-- A separator ends a statement, together with the line ends behind it. -/
theorem passTerminator_of_separates {c : Cursor} (h : Separates c.kind) (depth : Int) :
    c.passTerminator? depth = some c.advance.skipLines := by
  rw [Cursor.passTerminator?_eq_some]
  rcases h with h | h
  · exact .inr (.inl ⟨h, (Cursor.skipLines_of_line h).symm⟩)
  · exact .inr (.inr (.inl ⟨h, rfl⟩))

/-- Two streams differ in a separator, `y` or `z`, and the line ends behind it.  What follows these
is the same. -/
structure Difference where
  y : Token
  z : Token
  us : List Token
  vs : List Token
  separates_y : Separates y.kind
  separates_z : Separates z.kind
  joins : vs.dropWhile (·.kind == .endOfLine) = us.dropWhile (·.kind == .endOfLine)

namespace Difference

variable (D : Difference)

/-- A separator can be another one if the tokens in front do not end with one behind which line ends
are passed. -/
def Guarded (ts : List Token) : Prop := D.z = D.y ∨ ∀ w ∈ ts.getLast?, ¬ PassesLines w.kind

/-- The tokens ahead are the same up to the separators, or else both of these have been passed. -/
def Parted (c d : Cursor) : Prop :=
  d.rest = c.rest ∨ ∃ ts, D.Guarded ts ∧ c.rest = ts ++ D.y :: D.us ∧ d.rest = ts ++ D.z :: D.vs

variable {D} {c d : Cursor}

theorem Guarded.append {ts us : List Token} (h : D.Guarded (ts ++ us)) (hus : us ≠ []) :
    D.Guarded us := by
  refine h.imp_right fun h w hw => h w ?_
  rwa [List.getLast?_append_of_ne_nil ts hus]

/-- Line ends are passed by both, unless one cursor is at a line end and the other at a semicolon. -/
theorem parted_skipLines {ts : List Token} (h : D.Guarded ts) (hc : c.rest = ts ++ D.y :: D.us)
    (hd : d.rest = ts ++ D.z :: D.vs) (hts : ts = [] → D.z = D.y) :
    D.Parted c.skipLines d.skipLines := by
  have hc' := c.skipLines_rest
  have hd' := d.skipLines_rest
  rw [hc, List.dropWhile_append] at hc'
  rw [hd, List.dropWhile_append] at hd'
  by_cases hempty : (ts.dropWhile (·.kind == .endOfLine)).isEmpty = true
  -- only line ends stand in front of the separators, which are therefore the same
  · have hyz : D.z = D.y := by
      rcases h with h | h
      · exact h
      rcases List.eq_nil_or_concat ts with rfl | ⟨front, w, rfl⟩
      · exact hts rfl
      · rw [List.isEmpty_iff, List.dropWhile_eq_nil_iff] at hempty
        have hw := beq_iff_eq.1 (hempty w (by simp))
        exact absurd (.inl (.inl hw)) (h w (by simp))
    rw [if_pos hempty, List.dropWhile_cons] at hc' hd'
    rw [hyz] at hd'
    by_cases hline : D.y.kind = .endOfLine
    · rw [if_pos (beq_iff_eq.2 hline)] at hc' hd'
      exact .inl (by rw [hc', hd', D.joins])
    · rw [if_neg (mt beq_iff_eq.1 hline)] at hc' hd'
      exact .inr ⟨[], .inl hyz, hc', by rw [hd', hyz]; rfl⟩
  · rw [if_neg hempty] at hc' hd'
    refine .inr ⟨_, ?_, hc', hd'⟩
    rw [← List.takeWhile_append_dropWhile (p := (·.kind == .endOfLine)) (l := ts)] at h
    exact h.append (mt List.isEmpty_iff.2 hempty)

namespace Parted

/-- Either both cursors are at the separators, or they are at the same token, and go on behind it. -/
theorem cases (h : D.Parted c d) :
    (c.current = D.y ∧ d.current = D.z ∧ d.advance.skipLines.rest = c.advance.skipLines.rest) ∨
      d.current = c.current ∧ (c.kind ≠ .endOfInput → D.Parted c.advance d.advance ∧
        (PassesLines c.kind → D.Parted c.advance.skipLines d.advance.skipLines)) := by
  rcases h with h | ⟨ts, hg, hc, hd⟩
  · have hcur : d.current = c.current := (List.cons.inj h).1
    refine .inr ⟨hcur, fun hk => ?_⟩
    have hc' := (Cursor.rest_advance hk).1
    have hd' := (Cursor.rest_advance (c := d) (by rwa [Cursor.kind, hcur])).1
    have hadv : d.advance.rest = c.advance.rest :=
      (List.cons.inj (hd'.symm.trans (h.trans hc'))).2
    exact ⟨.inl hadv, fun _ => .inl (by rw [Cursor.skipLines_rest, Cursor.skipLines_rest, hadv])⟩
  cases ts with
  | nil =>
    have hy : c.current = D.y := (List.cons.inj hc).1
    have hz : d.current = D.z := (List.cons.inj hd).1
    have hc' := (Cursor.rest_advance (c := c) (by rw [Cursor.kind, hy]; exact D.separates_y.ne_end)).1
    have hd' := (Cursor.rest_advance (c := d) (by rw [Cursor.kind, hz]; exact D.separates_z.ne_end)).1
    rw [hc] at hc'
    rw [hd] at hd'
    refine .inl ⟨hy, hz, ?_⟩
    rw [Cursor.skipLines_rest, Cursor.skipLines_rest, ← (List.cons.inj hc').2,
      ← (List.cons.inj hd').2, D.joins]
  | cons w ts =>
    have hw : c.current = w := (List.cons.inj hc).1
    have hcur : d.current = c.current := (List.cons.inj hd).1.trans hw.symm
    refine .inr ⟨hcur, fun hk => ?_⟩
    have hc' := (Cursor.rest_advance hk).1
    have hd' := (Cursor.rest_advance (c := d) (by rwa [Cursor.kind, hcur])).1
    rw [hc] at hc'
    rw [hd] at hd'
    have hts : D.Guarded ts := by
      cases ts with
      | nil => exact .inr (by simp)
      | cons v ts =>
        have hsplit : D.Guarded ([w] ++ v :: ts) := hg
        exact hsplit.append (List.cons_ne_nil v ts)
    have hca := (List.cons.inj hc').2.symm
    have hda := (List.cons.inj hd').2.symm
    refine ⟨.inr ⟨ts, hts, hca, hda⟩, fun hopens => parted_skipLines hts hca hda ?_⟩
    rintro rfl
    exact hg.resolve_right fun h => h w rfl (hw ▸ hopens)

/-- A token that does not separate statements is the same, and is passed by both. -/
theorem of_not_separates (h : D.Parted c d) (hk : ¬ Separates c.kind ∨ ¬ Separates d.kind) :
    d.current = c.current ∧ (c.kind ≠ .endOfInput → D.Parted c.advance d.advance ∧
      (PassesLines c.kind → D.Parted c.advance.skipLines d.advance.skipLines)) := by
  rcases h.cases with ⟨hy, hz, -⟩ | h
  · rw [Cursor.kind, hy, Cursor.kind, hz] at hk
    exact absurd hk (not_or.2 ⟨not_not.2 D.separates_y, not_not.2 D.separates_z⟩)
  · exact h

/-- A kind that does not separate statements is seen by both. -/
theorem kind_iff (h : D.Parted c d) {k : Kind} (hk : ¬ Separates k) : c.kind = k ↔ d.kind = k := by
  constructor
  · rintro rfl
    exact congrArg Token.kind (h.of_not_separates (.inl hk)).1
  · rintro rfl
    exact congrArg Token.kind (h.of_not_separates (.inr hk)).1.symm

/-- A terminator is one for both. -/
theorem passTerminator (h : D.Parted c d) (depth : Int) :
    (c.passTerminator? depth = none ∧ d.passTerminator? depth = none ∧
        D.Parted c.advance d.advance) ∨
      ∃ c' d', c.passTerminator? depth = some c' ∧ d.passTerminator? depth = some d' ∧
        D.Parted c' d' := by
  rcases h.cases with ⟨hy, hz, hjoin⟩ | ⟨hcur, hnext⟩
  · have hc : Separates c.kind := by rw [Cursor.kind, hy]; exact D.separates_y
    have hd : Separates d.kind := by rw [Cursor.kind, hz]; exact D.separates_z
    exact .inr ⟨_, _, passTerminator_of_separates hc depth, passTerminator_of_separates hd depth,
      .inl hjoin⟩
  have hk : d.kind = c.kind := congrArg Token.kind hcur
  by_cases hsep : Separates c.kind
  · exact .inr ⟨_, _, passTerminator_of_separates hsep depth,
      passTerminator_of_separates (hk ▸ hsep) depth, (hnext hsep.ne_end).2 (.inl hsep)⟩
  simp only [Cursor.passTerminator?_eq_some, Cursor.passTerminator?_eq_none, hk]
  by_cases hend : c.kind = .endOfInput
  · exact .inr ⟨c, d, .inl ⟨hend, rfl⟩, .inl ⟨hend, rfl⟩, h⟩
  by_cases hbrace : c.kind = .rightBrace ∧ 0 < depth
  · exact .inr ⟨c, d, .inr (.inr (.inr ⟨hbrace, rfl⟩)), .inr (.inr (.inr ⟨hbrace, rfl⟩)), h⟩
  · obtain ⟨hline, hsemi⟩ := not_or.1 hsep
    exact .inl ⟨⟨hend, hline, hsemi, hbrace⟩, ⟨hend, hline, hsemi, hbrace⟩, (hnext hend).1⟩

theorem seek (h : D.Parted c d) (depth : Int) : D.Parted (c.seek depth) (d.seek depth) := by
  induction c using Cursor.advance_induction generalizing d with
  | h c ih =>
    have hend := h.kind_iff (k := .endOfInput) (by decide)
    have hstarts : c.kind.startsStatement = d.kind.startsStatement := by
      rcases h.cases with ⟨hy, hz, -⟩ | ⟨hcur, -⟩
      · rw [Cursor.kind, Cursor.kind, hy, hz, D.separates_y.not_startsStatement,
          D.separates_z.not_startsStatement]
      · rw [Cursor.kind, Cursor.kind, hcur]
    rw [Cursor.seek_eq depth c, Cursor.seek_eq depth d]
    simp only [← hend, ← hstarts]
    split_ifs with hk
    · exact h
    rcases h.passTerminator depth with ⟨hc, hd, hadv⟩ | ⟨c', d', hc, hd, h'⟩
    · rw [hc, hd]
      exact ih (fun h => hk (.inl h)) hadv
    · rw [hc, hd]
      exact h'

/-- After an error both go on at the same place. -/
theorem resume (h : D.Parted c d) (depth : Int) : D.Parted (c.resume depth) (d.resume depth) := by
  rw [Cursor.resume, Cursor.resume]
  rcases h.passTerminator depth with ⟨hc, hd, hadv⟩ | ⟨c', d', hc, hd, h'⟩
  · rw [hc, hd]
    exact hadv.seek depth
  · rw [hc, hd]
    exact h'

end Parted

end Difference

/-! ### States around a separator -/

namespace Difference

variable (D : Difference)

/-- Two errors are the same, or they are at the separators. -/
def Corresponds (m n : Mismatch) : Prop := n = m ∨ m.token = D.y ∧ n = { m with token := D.z }

/-- Two states around the separators, with the same errors. -/
structure Around (s t : State) : Prop where
  cursors : D.Parted s.cursor t.cursor
  depth : t.depth = s.depth
  errors : List.Forall₂ D.Corresponds s.mismatches t.mismatches
  silent : s.hook.interrupts = [] ∧ t.hook.interrupts = []

variable {D}

namespace Around

variable {s t : State}

theorem moveTo {c d : Cursor} (h : D.Around s t) (hcd : D.Parted c d) :
    D.Around (s.moveTo c) (t.moveTo d) := ⟨hcd, h.depth, h.errors, h.silent⟩

theorem reported {m n : Mismatch} (h : D.Around s t) (hmn : D.Corresponds m n) :
    D.Around (s.reported m) (t.reported n) := by
  refine ⟨h.cursors, h.depth, ?_, h.silent⟩
  rw [State.mismatches_reported, State.mismatches_reported]
  exact List.rel_append h.errors (.cons hmn .nil)

/-- An error at the token under the cursor. -/
theorem failed (h : D.Around s t) (rule : Rule) (message : String) :
    D.Around (s.reported ⟨rule, message, s.cursor.current⟩)
      (t.reported ⟨rule, message, t.cursor.current⟩) := by
  refine h.reported ?_
  rcases h.cursors.cases with ⟨hy, hz, -⟩ | ⟨hcur, -⟩
  · exact .inr ⟨hy, by rw [hz]⟩
  · exact .inl (by rw [hcur])

theorem resumed (h : D.Around s t) : D.Around s.resumed t.resumed := by
  refine ⟨?_, h.depth, by simpa using h.errors, h.silent⟩
  show D.Parted (s.cursor.resume s.depth) (t.cursor.resume t.depth)
  rw [h.depth]
  exact h.cursors.resume s.depth

/-- One token that is no separator is taken by both. -/
theorem next (h : D.Around s t) (hk : s.cursor.kind ≠ .endOfInput)
    (hsep : ¬ Separates s.cursor.kind) : D.Around s.next t.next :=
  h.moveTo ((h.cursors.of_not_separates (.inl hsep)).2 hk).1

theorem entered (h : D.Around s t) (hcd : D.Parted s.cursor.skipLines t.cursor.skipLines) :
    D.Around s.opened.begun t.opened.begun :=
  ⟨hcd, congrArg (· + 1) h.depth, h.errors, h.silent⟩

theorem closed (h : D.Around s t) : D.Around s.closed t.closed :=
  ⟨h.cursors, congrArg (· - 1) h.depth, h.errors, h.silent⟩

end Around

variable (D)

/-- Two runs over streams that differ in a separator. -/
def simulation : StatementSimulation where
  relabel := id
  Near := D.Around
  Apart := Simulation.Never
  Lost _ := False
  kind_relabel := kind_id
  literal_relabel := literal_id
  hooks h := (hookStops_of_silent h.silent.2).trans (hookStops_of_silent h.silent.1).symm
  same h hk := (h.cursors.of_not_separates
    (hk.imp (fun hk hs => hs.not_taken hk) fun hk hs => hs.not_taken hk)).1
  next h hk := .inl (h.next hk.2.2.2 fun hs => hs.not_taken hk)
  failed rule message h := h.failed rule message
  rejected h _ := h.reported (.inl rfl)
  lost := @never_lost
  brace h := h.cursors.kind_iff (by decide)
  stop h := h.cursors.kind_iff (by decide)
  passed h hk := .inl (h.next (by rw [hk]; decide) (by rw [hk]; decide))
  entered h hk := by
    have hbehind := h.cursors.of_not_separates (.inl (by rw [hk]; decide))
    obtain ⟨hadv, hskip⟩ := hbehind.2 (by rw [hk]; decide)
    exact .inl ((h.moveTo hadv).entered (hskip (.inr hk)))
  ended h := by
    rw [h.depth]
    refine (h.cursors.passTerminator _).imp (fun h => ⟨h.1, h.2.1⟩) ?_
    rintro ⟨c, d, hc, hd, hcd⟩
    exact ⟨c, d, hc, hd, .inl (h.moveTo hcd)⟩
  resumed h := .inl h.resumed
  closed h := h.closed
  closed_apart h := h
  closed_lost h := h
  atEnd h := h.elim
  unclosed h := h.elim

/-! ### Programs -/

variable {D}

/-- **Streams that differ in a separator give the same entries and errors.** -/
theorem gives {ts ts' : List Token} {e : Token} (he : e.kind = .endOfInput)
    (h : ∀ c d : Cursor, c.rest = ts ++ [e] → d.rest = ts' ++ [e] →
      D.Parted c.skipLines d.skipLines) :
    ∃ p ms ms', Gives 0 (ts ++ [e]) p ms ∧ Gives 0 (ts' ++ [e]) p ms' ∧
      List.Forall₂ D.Corresponds ms ms' := by
  obtain ⟨s, hs⟩ := exists_start ts he {}
  obtain ⟨t, ht⟩ := exists_start ts' he {}
  obtain ⟨hrs, hds, hms, hhs⟩ := of_start hs
  obtain ⟨hrt, hdt, hmt, hht⟩ := of_start ht
  have hbudget : ∀ n, budgetSpent 0 n = false := fun n => rfl
  obtain ⟨p, u, hsteps, hend, -⟩ := exists_steps (Int.le_of_eq hds) hhs
  have hbegun : D.Around s.begun t.begun := by
    refine ⟨h _ _ hrs hrt, hdt.trans hds.symm, ?_, hhs, hht⟩
    show List.Forall₂ _ s.mismatches t.mismatches
    rw [hms, hmt]
    exact .nil
  obtain ⟨v, hv, hnear | hfalse⟩ := D.simulation.steps hsteps (.inl hbegun) id
  · have hvend := (D.simulation.stop hnear).1 hend
    refine ⟨p, _, _, (gives_iff_steps hs (hbudget _)).2 ⟨u, hsteps, hend, rfl⟩,
      (gives_iff_steps ht (hbudget _)).2 ⟨v, ?_, hvend, rfl⟩, hnear.errors⟩
    exact Program.map_id p ▸ hv
  · exact hfalse.elim

/-- Where the separators are the same, so are the errors. -/
theorem eq_of_corresponds (hyz : D.z = D.y) {ms ns : List Mismatch}
    (h : List.Forall₂ D.Corresponds ms ns) : ns = ms := by
  induction h with
  | nil => rfl
  | cons hmn _ ih =>
    rw [ih]
    rcases hmn with rfl | ⟨hy, rfl⟩
    · rfl
    · rw [hyz, ← hy]

end Difference

/-- A line end is put in at the very start, or directly behind a line end or a semicolon. -/
inductive LineAdded : List Token → List Token → Prop
  | start {e : Token} (ts : List Token) : e.kind = .endOfLine → LineAdded ts (e :: ts)
  | behind {x e : Token} (front back : List Token) : Separates x.kind → e.kind = .endOfLine →
      LineAdded (front ++ x :: back) (front ++ x :: e :: back)

/-- A line end is replaced by a semicolon, the first one of those that are side by side.  They are not
at the very start, and not directly behind a semicolon or an opening brace. -/
inductive LineReplaced : List Token → List Token → Prop
  | intro {w e q : Token} (front back : List Token) : ¬ PassesLines w.kind → e.kind = .endOfLine →
      q.kind = .semicolon → LineReplaced (front ++ w :: e :: back) (front ++ w :: q :: back)

/-- Two errors are the same, at tokens that stand at the same place of two streams. -/
structure SameError (tokens tokens' : List Token) (m n : Mismatch) : Prop where
  rule : n.rule = m.rule
  message : n.message = m.message
  place : ∃ i : Nat, tokens[i]? = some m.token ∧ tokens'[i]? = some n.token

/-- The errors of a program are at its tokens. -/
theorem Gives.token_mem {budget : Nat} {tokens : List Token} {p : Program} {ms : List Mismatch}
    (h : Gives budget tokens p ms) {m : Mismatch} (hm : m ∈ ms) : m.token ∈ tokens := by
  obtain ⟨s, t, hs, hp, rfl⟩ := h
  obtain ⟨hrest, hd, herr, -⟩ := of_start hs
  rw [← hrest]
  exact token_mem_of_program (Int.le_of_eq hd) herr hp hm

/-- A line end more is a difference in a separator, or none. -/
theorem LineAdded.gives {ts ts' : List Token} (h : LineAdded ts ts') {stop : Token}
    (hstop : stop.kind = .endOfInput) :
    ∃ p ms, Gives 0 (ts ++ [stop]) p ms ∧ Gives 0 (ts' ++ [stop]) p ms := by
  obtain ⟨D, hyz, hparted⟩ : ∃ D : Difference, D.z = D.y ∧ ∀ c d : Cursor, c.rest = ts ++ [stop] →
      d.rest = ts' ++ [stop] → D.Parted c.skipLines d.skipLines := by
    cases h with
    | @start e ts he =>
      refine ⟨⟨e, e, [], [], .inl he, .inl he, rfl⟩, rfl, fun c d hc hd => .inl ?_⟩
      rw [Cursor.skipLines_rest, Cursor.skipLines_rest, hc, hd, List.cons_append,
        List.dropWhile_cons, if_pos (beq_iff_eq.2 he)]
    | @behind x e front back hx he =>
      let D : Difference := ⟨x, x, back ++ [stop], e :: back ++ [stop], hx, hx, by
        rw [List.cons_append, List.dropWhile_cons, if_pos (beq_iff_eq.2 he)]⟩
      have hguard : D.Guarded front := .inl rfl
      refine ⟨D, rfl, fun c d hc hd => Difference.parted_skipLines hguard ?_ ?_ fun _ => rfl⟩
      · rw [hc, List.append_assoc]
        rfl
      · rw [hd, List.append_assoc]
        rfl
  obtain ⟨p, ms, ms', hp, hp', herr⟩ := Difference.gives hstop hparted
  exact ⟨p, ms, hp, Difference.eq_of_corresponds hyz herr ▸ hp'⟩

/-- Where two streams differ in one place only, a token of both stands at the same place of both. -/
theorem exists_same_place {front back : List Token} {t y z : Token} (hy : t ∈ front ++ y :: back)
    (hz : t ∈ front ++ z :: back) :
    ∃ i : Nat, (front ++ y :: back)[i]? = some t ∧ (front ++ z :: back)[i]? = some t := by
  induction front with
  | nil =>
    have hback : t ∈ back → ∃ i : Nat, (y :: back)[i]? = some t ∧ (z :: back)[i]? = some t :=
      fun h => (List.mem_iff_getElem?.1 h).imp' (· + 1) fun _ hi => ⟨hi, hi⟩
    rcases List.mem_cons.1 hy with rfl | hy
    · rcases List.mem_cons.1 hz with rfl | hz
      · exact ⟨0, rfl, rfl⟩
      · exact hback hz
    · exact hback hy
  | cons w front ih =>
    rcases List.mem_cons.1 hy with rfl | hy
    · exact ⟨0, rfl, rfl⟩
    rcases List.mem_cons.1 hz with rfl | hz
    · exact ⟨0, rfl, rfl⟩
    · exact (ih hy hz).imp' (· + 1) fun _ hi => hi

/-- A semicolon for a line end is a difference in a separator. -/
theorem LineReplaced.gives {ts ts' : List Token} (h : LineReplaced ts ts') {stop : Token}
    (hstop : stop.kind = .endOfInput) :
    ∃ p ms ms', Gives 0 (ts ++ [stop]) p ms ∧ Gives 0 (ts' ++ [stop]) p ms' ∧
      List.Forall₂ (SameError (ts ++ [stop]) (ts' ++ [stop])) ms ms' := by
  obtain @⟨w, e, q, front, back, hw, he, hq⟩ := h
  let D : Difference := ⟨e, q, back ++ [stop], back ++ [stop], .inl he, .inr hq, rfl⟩
  have hsplit : ∀ t, (front ++ w :: t :: back) ++ [stop] = (front ++ [w]) ++ t :: (back ++ [stop]) :=
    fun t => by simp
  have hguard : D.Guarded (front ++ [w]) := by
    refine .inr fun v hv => ?_
    rw [List.getLast?_concat, Option.mem_some_iff] at hv
    exact hv ▸ hw
  obtain ⟨p, ms, ms', hp, hp', herr⟩ := D.gives hstop fun c d hc hd =>
    Difference.parted_skipLines hguard (hc.trans (hsplit e)) (hd.trans (hsplit q)) (by simp)
  refine ⟨p, ms, ms', hp, hp', ?_⟩
  have hboth := (List.forall₂_and_left _ _).2 ⟨fun m hm => hp.token_mem hm, herr⟩
  have hboth' := (List.forall₂_and_left _ _).2 ⟨fun n hn => hp'.token_mem hn, hboth.flip⟩
  refine hboth'.flip.imp fun m n ⟨hn, hm, hmn⟩ => ?_
  rw [hsplit] at hm hn ⊢
  rw [hsplit]
  rcases hmn with rfl | ⟨hy, rfl⟩
  · exact ⟨rfl, rfl, exists_same_place hm hn⟩
  · refine ⟨rfl, rfl, (front ++ [w]).length, ?_, ?_⟩
    · rw [hy, List.getElem?_append_right (Nat.le_refl _), Nat.sub_self]
      rfl
    · rw [List.getElem?_append_right (Nat.le_refl _), Nat.sub_self]
      rfl

/-- **Blank lines do not matter, and neither does the choice between a line end and a semicolon.**
With one more line end at the very start, or behind a line end or a semicolon, the tokens give the same
entries and errors.  With a semicolon for the first of some line ends they give the same entries, and
the same errors at the same places. -/
theorem separators_do_not_matter :
    (∀ (ts ts' : List Token) (stop : Token), LineAdded ts ts' → stop.kind = .endOfInput →
      ∃ p ms, Gives 0 (ts ++ [stop]) p ms ∧ Gives 0 (ts' ++ [stop]) p ms) ∧
    ∀ (ts ts' : List Token) (stop : Token), LineReplaced ts ts' → stop.kind = .endOfInput →
      ∃ p ms ms', Gives 0 (ts ++ [stop]) p ms ∧ Gives 0 (ts' ++ [stop]) p ms' ∧
        List.Forall₂ (SameError (ts ++ [stop]) (ts' ++ [stop])) ms ms' :=
  ⟨fun _ _ _ h hstop => h.gives hstop, fun _ _ _ h hstop => h.gives hstop⟩

/-- Behind a stray parenthesis and a semicolon a variable has no name: the line end in place of the
name may as well be a semicolon, and a blank line in front of the declaration does not matter. -/
theorem separators_around_a_declaration_without_a_name :
    let paren : Token := ⟨.rightParen, ")", .nil, 1, 1⟩
    let semicolon : Token := ⟨.semicolon, ";", .nil, 1, 2⟩
    let var : Token := ⟨.keyword .kVar, "var", .nil, 1, 3⟩
    let line : Token := ⟨.endOfLine, "\n", .nil, 1, 6⟩
    let x : Token := ⟨.identifier, "x", .nil, 2, 1⟩
    let stop : Token := ⟨.endOfInput, "", .nil, 2, 2⟩
    let blank : Token := ⟨.endOfLine, "\n", .nil, 1, 3⟩
    let semicolon' : Token := ⟨.semicolon, ";", .nil, 1, 6⟩
    let stray : Mismatch := ⟨.expression, "Expect expression.", paren⟩
    let nameless (t : Token) : Mismatch := ⟨.token, "Expect variable name.", t⟩
    let p : Program := [none, none, some (.expression (.reference x))]
    Gives 0 [paren, semicolon, var, line, x, stop] p [stray, nameless line] ∧
      Gives 0 [paren, semicolon, blank, var, line, x, stop] p [stray, nameless line] ∧
      ∃ ms, Gives 0 [paren, semicolon, var, semicolon', x, stop] p ms ∧
        List.Forall₂ (SameError [paren, semicolon, var, line, x, stop]
          [paren, semicolon, var, semicolon', x, stop]) [stray, nameless line] ms := by
  intro paren semicolon var line x stop blank semicolon' stray nameless p
  have hgives : Gives 0 [paren, semicolon, var, line, x, stop] p [stray, nameless line] := by
    decide +kernel
  obtain ⟨hadded, hreplaced⟩ := separators_do_not_matter
  obtain ⟨q, ms, hp, hp'⟩ := hadded [paren, semicolon, var, line, x]
    [paren, semicolon, blank, var, line, x] stop (.behind [paren] [var, line, x] (.inr rfl) rfl) rfl
  obtain ⟨rfl, rfl⟩ := hp.unique hgives
  obtain ⟨q, ms, ms', hp, hp'', herr⟩ := hreplaced [paren, semicolon, var, line, x]
    [paren, semicolon, var, semicolon', x] stop (.intro [paren, semicolon] [x] (by decide) rfl rfl)
    rfl
  obtain ⟨rfl, rfl⟩ := hp.unique hgives
  exact ⟨hgives, hp', ms', hp'', herr⟩

end LoxFront.Parse
