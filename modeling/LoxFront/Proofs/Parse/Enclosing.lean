import LoxFront.Proofs.Parse.Simulation

/-!
# A program in braces

Tokens without braces are parsed twice, in front of the end of the input and in front of a closing
brace.  Outside of all blocks the end of the input does what the brace does inside of one: it ends
statements, it stops recovery, and no token behind it is looked at (`Facing`).  So the two runs go side
by side (`enclosed`), although the one is the loop over the entries of a program and the other the
loop over the statements of a block (`blockItems_of_steps`).

Therefore braces around a program make one block of the statements that are not dropped, and the
errors stay the same, except that those at the end of the input are now at the brace
(`braces_make_one_block`).
-/

namespace LoxFront.Parse

/-! ### Cursors in front of the end and of a brace -/

/-- The kinds of tokens that are no braces, and do not end the input. -/
def Braceless (k : Kind) : Prop := k ≠ .leftBrace ∧ k ≠ .rightBrace ∧ k ≠ .endOfInput

instance (k : Kind) : Decidable (Braceless k) :=
  inferInstanceAs (Decidable (k ≠ .leftBrace ∧ k ≠ .rightBrace ∧ k ≠ .endOfInput))

/-- The tokens ahead are the same, and no braces, in front of `e` alone or of `r`. -/
def Facing (e r : Token) (behind : List Token) (c d : Cursor) : Prop :=
  ∃ ts, (∀ t ∈ ts, Braceless t.kind) ∧ c.rest = ts ++ [e] ∧ d.rest = ts ++ r :: behind

namespace Facing

variable {e r : Token} {behind : List Token} {c d : Cursor}

/-- Either both cursors are at the same token, or the tokens of both are used up. -/
theorem cases (h : Facing e r behind c d) :
    (Braceless c.kind ∧ d.current = c.current ∧ Facing e r behind c.advance d.advance) ∨
      c.current = e ∧ d.current = r ∧ d.ahead = behind := by
  obtain ⟨ts, hts, hc, hd⟩ := h
  cases ts with
  | nil => exact .inr ⟨(List.cons.inj hc).1, List.cons.inj hd⟩
  | cons t ts =>
    have hcur : d.current = c.current := (List.cons.inj hd).1.trans (List.cons.inj hc).1.symm
    have hk : Braceless c.kind := by
      rw [Cursor.kind, (List.cons.inj hc).1]
      exact hts t List.mem_cons_self
    have hkd : d.kind ≠ .endOfInput := by
      rw [Cursor.kind, hcur]
      exact hk.2.2
    have hc' := (Cursor.rest_advance hk.2.2).1
    have hd' := (Cursor.rest_advance hkd).1
    rw [hc] at hc'
    rw [hd] at hd'
    exact .inl ⟨hk, hcur, ts, fun u hu => hts u (List.mem_cons_of_mem _ hu),
      (List.cons.inj hc').2.symm, (List.cons.inj hd').2.symm⟩

variable (he : e.kind = .endOfInput) (hr : r.kind = .rightBrace)
include he hr

/-- Where the tokens are used up, one cursor is at the end of the input and the other at the brace. -/
theorem braceless_or_ends (h : Facing e r behind c d) :
    (Braceless c.kind ∧ d.current = c.current ∧ Facing e r behind c.advance d.advance) ∨
      c.kind = .endOfInput ∧ d.kind = .rightBrace := by
  refine h.cases.imp_right ?_
  rintro ⟨hc, hd, -⟩
  rw [Cursor.kind, Cursor.kind, hc, hd]
  exact ⟨he, hr⟩

theorem skipLines (h : Facing e r behind c d) : Facing e r behind c.skipLines d.skipLines := by
  induction c using Cursor.advance_induction generalizing d with
  | h c ih =>
    rcases h.braceless_or_ends he hr with ⟨hk, hcur, hadv⟩ | ⟨hc, hd⟩
    · have hkind : d.kind = c.kind := congrArg Token.kind hcur
      by_cases hl : c.kind = .endOfLine
      · rw [Cursor.skipLines_of_line hl, Cursor.skipLines_of_line (hkind.trans hl)]
        exact ih hk.2.2 hadv
      · rw [Cursor.skipLines_of_ne hl, Cursor.skipLines_of_ne (hkind ▸ hl)]
        exact h
    · rw [Cursor.skipLines_of_ne (by rw [hc]; decide), Cursor.skipLines_of_ne (by rw [hd]; decide)]
      exact h

/-- The end of the input is a terminator, and so is the brace, inside of a block. -/
theorem passTerminator {i j : Int} (hj : 0 < j) (h : Facing e r behind c d) :
    (Braceless c.kind ∧ c.passTerminator? i = none ∧ d.passTerminator? j = none) ∨
      ∃ c' d', c.passTerminator? i = some c' ∧ d.passTerminator? j = some d' ∧
        Facing e r behind c' d' := by
  simp only [Cursor.passTerminator?_eq_some, Cursor.passTerminator?_eq_none]
  rcases h.braceless_or_ends he hr with ⟨hk, hcur, hadv⟩ | ⟨hc, hd⟩
  · have hkind : d.kind = c.kind := congrArg Token.kind hcur
    rw [hkind]
    by_cases hline : c.kind = .endOfLine
    · exact .inr ⟨_, _, .inr (.inl ⟨hline, rfl⟩), .inr (.inl ⟨hline, rfl⟩), h.skipLines he hr⟩
    by_cases hsemi : c.kind = .semicolon
    · exact .inr ⟨_, _, .inr (.inr (.inl ⟨hsemi, rfl⟩)), .inr (.inr (.inl ⟨hsemi, rfl⟩)),
        hadv.skipLines he hr⟩
    · exact .inl ⟨hk, ⟨hk.2.2, hline, hsemi, fun h => hk.2.1 h.1⟩, hk.2.2, hline, hsemi,
        fun h => hk.2.1 h.1⟩
  · exact .inr ⟨c, d, .inl ⟨hc, rfl⟩, .inr (.inr (.inr ⟨⟨hd, hj⟩, rfl⟩)), h⟩

/-- A token that is no brace is passed by both. -/
theorem advance (h : Facing e r behind c d) (hk : Braceless c.kind) :
    Facing e r behind c.advance d.advance := by
  rcases h.braceless_or_ends he hr with ⟨-, -, hadv⟩ | ⟨hc, -⟩
  · exact hadv
  · exact absurd hc hk.2.2

theorem seek {i j : Int} (hj : 0 < j) (h : Facing e r behind c d) :
    Facing e r behind (c.seek i) (d.seek j) := by
  induction c using Cursor.advance_induction generalizing d with
  | h c ih =>
    have hpass := h.passTerminator he hr (i := i) hj
    rw [Cursor.seek_eq i c, Cursor.seek_eq j d]
    rcases h.braceless_or_ends he hr with ⟨hk, hcur, hadv⟩ | ⟨hc, hd⟩
    · rw [show d.kind = c.kind from congrArg Token.kind hcur]
      split_ifs
      · exact h
      rcases hpass with ⟨-, hc, hd⟩ | ⟨c', d', hc, hd, h'⟩
      · rw [hc, hd]
        exact ih hk.2.2 hadv
      · rw [hc, hd]
        exact h'
    -- the end of the input is not left, and the brace is a terminator that is not passed
    · have hstarts : ¬ (d.kind = .endOfInput ∨ d.kind.startsStatement = true) := by rw [hd]; decide
      have hterm : d.passTerminator? j = some d :=
        Cursor.passTerminator?_eq_some.2 (.inr (.inr (.inr ⟨⟨hd, hj⟩, rfl⟩)))
      rw [if_pos (.inl hc), if_neg hstarts, hterm]
      exact h

theorem resume {i j : Int} (hj : 0 < j) (h : Facing e r behind c d) :
    Facing e r behind (c.resume i) (d.resume j) := by
  rw [Cursor.resume, Cursor.resume]
  rcases h.passTerminator he hr (i := i) hj with ⟨hk, hc, hd⟩ | ⟨c', d', hc, hd, h'⟩
  · rw [hc, hd]
    exact (h.advance he hr hk).seek he hr hj
  · rw [hc, hd]
    exact h'

end Facing

/-! ### States outside and inside of the block -/

/-- An error at the end of the input is at a brace instead. -/
def atBrace (r : Token) (m : Mismatch) : Mismatch :=
  if m.token.kind = .endOfInput then { m with token := r } else m

/-- The second state is inside of a block that ends with `r`, and the first one outside. -/
structure Enclosed (e r : Token) (behind : List Token) (s t : State) : Prop where
  cursors : Facing e r behind s.cursor t.cursor
  inside : 0 < t.depth
  errors : t.mismatches = s.mismatches.map (atBrace r)
  silent : s.hook.interrupts = [] ∧ t.hook.interrupts = []

namespace Enclosed

variable {e r : Token} {behind : List Token} {s t : State}

theorem moveTo {c d : Cursor} (h : Enclosed e r behind s t) (hcd : Facing e r behind c d) :
    Enclosed e r behind (s.moveTo c) (t.moveTo d) := ⟨hcd, h.inside, h.errors, h.silent⟩

theorem reported {m n : Mismatch} (h : Enclosed e r behind s t) (hm : n = atBrace r m) :
    Enclosed e r behind (s.reported m) (t.reported n) :=
  ⟨h.cursors, h.inside, by simp [h.errors, hm], h.silent⟩

/-- An error at the token under the cursor. -/
theorem failed (he : e.kind = .endOfInput) (rule : Rule) (message : String)
    (h : Enclosed e r behind s t) :
    Enclosed e r behind (s.reported ⟨rule, message, s.cursor.current⟩)
      (t.reported ⟨rule, message, t.cursor.current⟩) := by
  refine h.reported ?_
  rcases h.cursors.cases with ⟨hk, hcur, -⟩ | ⟨hs, ht, -⟩
  · rw [hcur, atBrace, if_neg hk.2.2]
  · rw [hs, ht, atBrace, if_pos he]

theorem resumed (he : e.kind = .endOfInput) (hr : r.kind = .rightBrace)
    (h : Enclosed e r behind s t) : Enclosed e r behind s.resumed t.resumed :=
  ⟨h.cursors.resume he hr h.inside, h.inside, by simpa using h.errors, h.silent⟩

end Enclosed

/-- A program outside of all blocks, and the same tokens inside of a block. -/
def enclosed (e r : Token) (behind : List Token) (he : e.kind = .endOfInput)
    (hr : r.kind = .rightBrace) : EndingSimulation where
  relabel := id
  Near := Enclosed e r behind
  Apart _ _ := False
  Lost _ := False
  kind_relabel := kind_id
  literal_relabel := literal_id
  hooks h := (hookStops_of_silent h.silent.2).trans (hookStops_of_silent h.silent.1).symm
  same h hk := by
    rcases h.cursors.braceless_or_ends he hr with ⟨-, hcur, -⟩ | ⟨hs, ht⟩
    · exact hcur
    · rw [hs, ht] at hk
      exact absurd hk (by decide)
  next h hk := by
    rcases h.cursors.braceless_or_ends he hr with ⟨-, -, hadv⟩ | ⟨hs, -⟩
    · exact .inl (h.moveTo hadv)
    · exact absurd hs hk.2.2.2
  failed rule message h := h.failed he rule message
  rejected {_ _ equals} h hk := by
    refine h.reported ?_
    have hne : (Mismatch.invalidAssignment equals).token.kind ≠ .endOfInput := by
      rw [show (Mismatch.invalidAssignment equals).token = equals from rfl, hk]
      decide
    rw [atBrace, if_neg hne]
    rfl
  lost _ h := h
  ended h := by
    refine (h.cursors.passTerminator he hr h.inside).imp And.right ?_
    rintro ⟨c, d, hc, hd, hcd⟩
    exact ⟨c, d, hc, hd, .inl (h.moveTo hcd)⟩
  resumed h := .inl (h.resumed he hr)

/-! ### Statements and blocks -/

section Blocks

variable {e r : Token} {behind : List Token} (he : e.kind = .endOfInput) (hr : r.kind = .rightBrace)
include he hr

/-- A statement without braces is the same inside and outside of a block. -/
theorem statementWithin_enclosed (fuel : Nat) :
    (enclosed e r behind he hr).TracksItem (statementWithin fuel) := by
  cases fuel with
  | zero => exact Simulation.throw_endless _
  | succ fuel =>
    refine EndingSimulation.recovering _ (EndingSimulation.statementOver_of_blockRest _ ?_)
    -- no block begins here
    intro s t h hb
    rcases h.cursors.braceless_or_ends he hr with ⟨hk, -⟩ | ⟨hk, -⟩
    · exact absurd hb hk.1
    · rw [hk] at hb
      cases hb

theorem statement_enclosed {s t u : State} {o : Option Stmt} (h : Enclosed e r behind s t)
    (ho : statement s = .ok o u) : ∃ v, statement t = .ok o v ∧ Enclosed e r behind u v := by
  -- fuel for both of the runs
  have hs : s.cursor.left < max s.cursor.left t.cursor.left + 1 := by omega
  have ht : t.cursor.left < max s.cursor.left t.cursor.left + 1 := by omega
  have hst := statementWithin_enclosed he hr (max s.cursor.left t.cursor.left + 1) s t h
  rw [statementWithin_eq hs, statementWithin_eq ht, ho] at hst
  generalize statement t = x at hst
  cases hst with
  | @ok _ _ v hn =>
    refine ⟨v, ?_, hn⟩
    show EStateM.Result.ok (o.map (Stmt.map id)) v = _
    rw [show Stmt.map id = id from funext Stmt.map_id, Option.map_id]
    rfl
  | apart h => exact h.elim
  | vain h =>
    rcases h with ⟨_, h⟩ | h
    · cases h
    · exact h.elim

/-- **Both loops give the same statements**, but a block keeps nothing for one that is dropped. -/
theorem blockItems_of_steps {s t u : State} {p : Program} (hp : Steps s p u)
    (hu : u.cursor.kind = .endOfInput) (h : Enclosed e r behind s t) {n fuel : Nat}
    (hn : t.cursor.left < n) (hf : t.cursor.left < fuel) :
    ∃ v, blockItems (statementWithin n) fuel t = .ok (p.filterMap id) v ∧ Enclosed e r behind u v := by
  induction hp generalizing t fuel with
  | nil s =>
    obtain ⟨fuel, rfl⟩ : ∃ i, fuel = i + 1 := ⟨fuel - 1, by omega⟩
    rcases h.cursors.braceless_or_ends he hr with ⟨hk, -⟩ | ⟨-, hk⟩
    · exact absurd hu hk.2.2
    · exact ⟨t, by rw [blockItems_run, if_pos (.inl hk)]; rfl, h⟩
  | @cons s s' u o p hk ho hp ih =>
    obtain ⟨fuel, rfl⟩ : ∃ i, fuel = i + 1 := ⟨fuel - 1, by omega⟩
    rcases h.cursors.braceless_or_ends he hr with ⟨hless, hcur, -⟩ | ⟨hend, -⟩
    · have hkt : Braceless t.cursor.kind := by
        rw [Cursor.kind, hcur]
        exact hless
      have hgo : ¬ (t.cursor.kind = .rightBrace ∨ t.cursor.kind = .endOfInput) :=
        fun h => h.elim hkt.2.1 hkt.2.2
      have hstuck : ¬ t.cursor.Stuck t.depth := fun h => hgo (h.symm.imp_left And.left)
      obtain ⟨t', ht', h'⟩ := statement_enclosed he hr h ho
      rw [← statementWithin_eq hn] at ht'
      have hlt := statementWithin_left_lt ht' hstuck
      obtain ⟨v, hv, hend⟩ := ih hu h' (by omega) (show t'.cursor.left < fuel by omega)
      refine ⟨v, ?_, hend⟩
      rw [blockItems_run, if_neg hgo, bind_of_ok ht', bind_of_ok hv, pure_run]
      cases o <;> rfl
    · exact absurd hend hk

end Blocks

/-- Between its closing brace and the end of the input a block ends. -/
theorem blockEnd_in_front_of_end {s : State} {stop : Token} (hb : s.cursor.kind = .rightBrace)
    (hs : s.cursor.ahead = [stop]) (hstop : stop.kind = .endOfInput) (items : List Stmt) :
    blockEnd items s = .ok (.block items) s.next ∧ s.next.cursor.kind = .endOfInput := by
  have hrest := (Cursor.rest_advance (c := s.cursor) (by rw [hb]; decide)).1
  rw [Cursor.rest, hs] at hrest
  have hnext : s.next.cursor.kind = .endOfInput := by
    show s.cursor.advance.current.kind = _
    rw [← (List.cons.inj (List.cons.inj hrest).2).1, hstop]
  have hterm : s.next.cursor.passTerminator? s.next.depth = some s.next.cursor :=
    Cursor.passTerminator?_eq_some.2 (.inl ⟨hnext, rfl⟩)
  refine ⟨?_, hnext⟩
  rw [blockEnd_run, if_pos hb, bind_run, requireTerminator_run, hterm]
  rfl

/-- A block around the tokens of a program is a statement of its own. -/
theorem statement_of_steps {s t u : State} {p : Program} {e r stop : Token}
    (he : e.kind = .endOfInput) (hr : r.kind = .rightBrace) (hstop : stop.kind = .endOfInput)
    (hp : Steps s.begun p u) (hu : u.cursor.kind = .endOfInput) (ht : t.cursor.kind = .leftBrace)
    (h : Enclosed e r [stop] s t.next.opened) :
    ∃ v, statement t = .ok (some (.block (p.filterMap id))) v ∧ v.cursor.kind = .endOfInput ∧
      v.mismatches = u.mismatches.map (atBrace r) := by
  have hbegun := left_block_lt ht
  have hinside : Enclosed e r [stop] s.begun t.next.opened.begun :=
    h.moveTo (h.cursors.skipLines he hr)
  obtain ⟨v, hv, hend⟩ := blockItems_of_steps he hr hp hu hinside hbegun (Nat.lt_succ_of_lt hbegun)
  -- the statements of the block end at the closing brace, with the end of the input behind it
  obtain ⟨-, hvr, hvs⟩ : u.cursor.current = e ∧ v.cursor.current = r ∧ v.cursor.ahead = [stop] := by
    rcases hend.cursors.cases with ⟨hk, -⟩ | h
    · exact absurd hu hk.2.2
    · exact h
  obtain ⟨hclose, hnext⟩ :=
    blockEnd_in_front_of_end (by rw [Cursor.kind, hvr, hr]) hvs hstop (p.filterMap id)
  have hover : statementOver (t.cursor.left + 1) (statementWithin t.cursor.left) t =
      .ok (.block (p.filterMap id)) v.next.closed := by
    rw [statementOver_run, ht, if_neg (by decide), if_neg (by decide), if_pos rfl, blockRest,
      insideBlock_run, blockBody_run, bind_of_ok hv, hclose]
  refine ⟨v.next.closed, ?_, hnext, hend.errors⟩
  rw [statement_run, statementWithin, recovering_run, hover]

/-- **Braces around a program make one block of it.**  The tokens are no braces.  Parsed by
themselves they give the entries `p`, and in braces one block of those that are not dropped, with the
same errors, except that those at the end of the input are at the closing brace. -/
theorem braces_make_one_block (ts : List Token) (l r e e' : Token)
    (hts : ∀ t ∈ ts, Braceless t.kind) (hl : l.kind = .leftBrace) (hr : r.kind = .rightBrace)
    (he : e.kind = .endOfInput) (he' : e'.kind = .endOfInput) :
    ∃ p ms, Gives 0 (ts ++ [e]) p ms ∧
      Gives 0 (l :: ts ++ [r] ++ [e']) [some (.block (p.filterMap id))] (ms.map (atBrace r)) := by
  obtain ⟨p, ms, hp⟩ := exists_gives 0 ts he
  refine ⟨p, ms, hp, ?_⟩
  obtain ⟨s, hs⟩ := exists_start ts he {}
  obtain ⟨t, ht⟩ := exists_start (l :: ts ++ [r]) he' {}
  have hbudget : ∀ n, budgetSpent 0 n = false := fun n => rfl
  obtain ⟨u, hsteps, hend, rfl⟩ := (gives_iff_steps hs (hbudget _)).1 hp
  rw [gives_iff_steps ht (hbudget _)]
  obtain ⟨hrs, -, hms, hhs⟩ := of_start hs
  obtain ⟨hrt, hdt, hmt, hht⟩ := of_start ht
  have hcur : t.cursor.current = l := (List.cons.inj hrt).1
  have hkt : t.cursor.kind = .leftBrace := by rw [Cursor.kind, hcur, hl]
  have hrest : t.next.cursor.rest = ts ++ r :: [e'] := by
    have hadv := (Cursor.rest_advance (c := t.cursor) (by rw [hkt]; decide)).1
    rw [hrt, List.append_assoc, List.cons_append] at hadv
    exact (List.cons.inj hadv).2.symm
  have henclosed : Enclosed e r [e'] s t.next.opened := by
    refine ⟨⟨ts, hts, hrs, hrest⟩, ?_, ?_, hhs, hht⟩
    · show 0 < t.depth + 1
      omega
    · show t.mismatches = _
      rw [hmt, hms]
      rfl
  obtain ⟨v, hv, hkv, hmv⟩ := statement_of_steps he hr he' hsteps hend hkt henclosed
  have hbegun : t.begun = t := by
    show t.moveTo t.cursor.skipLines = t
    rw [Cursor.skipLines_of_ne (by rw [hkt]; decide)]
    rfl
  rw [hbegun]
  exact ⟨v, .cons (by rw [hkt]; decide) hv (.nil v), hkv, hmv⟩

/-- Of a variable, a stray parenthesis and a print statement without a value the block keeps the
first, and the closing brace stands where the value is missing. -/
theorem one_block_of_what_is_kept :
    let x : Token := ⟨.identifier, "x", .nil, 1, 2⟩
    let semicolon : Token := ⟨.semicolon, ";", .nil, 1, 3⟩
    let paren : Token := ⟨.rightParen, ")", .nil, 1, 4⟩
    let line : Token := ⟨.endOfLine, "\n", .nil, 1, 5⟩
    let print : Token := ⟨.keyword .kPrint, "print", .nil, 2, 1⟩
    let l : Token := ⟨.leftBrace, "\x7b", .nil, 1, 1⟩
    let r : Token := ⟨.rightBrace, "\x7d", .nil, 2, 6⟩
    let stop : Token := ⟨.endOfInput, "", .nil, 2, 6⟩
    let stop' : Token := ⟨.endOfInput, "", .nil, 2, 7⟩
    let error (t : Token) : Mismatch := ⟨.expression, "Expect expression.", t⟩
    Gives 0 [x, semicolon, paren, line, print, stop]
        [some (.expression (.reference x)), none, none] [error paren, error stop] ∧
      Gives 0 [l, x, semicolon, paren, line, print, r, stop']
        [some (.block [.expression (.reference x)])] [error paren, error r] := by
  intro x semicolon paren line print l r stop stop' error
  obtain ⟨p, ms, hp, hblock⟩ := braces_make_one_block [x, semicolon, paren, line, print] l r stop
    stop' (by decide) rfl rfl rfl rfl
  have hgives : Gives 0 [x, semicolon, paren, line, print, stop]
      [some (.expression (.reference x)), none, none] [error paren, error stop] :=
    ⟨_, _, rfl, rfl, rfl⟩
  obtain ⟨rfl, rfl⟩ := hp.unique hgives
  exact ⟨hgives, hblock⟩

end LoxFront.Parse
