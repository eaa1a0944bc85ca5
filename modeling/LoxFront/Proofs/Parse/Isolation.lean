import LoxFront.Proofs.Parse.Simulation

/-!
# Errors stay where they are

Two runs over the same tokens up to a line end, a semicolon or the end of the input do the same until
they pass it (`Aligned`): nothing behind the token under the cursor is looked at.  When the first run
has passed it and comes to the end of its input outside of all blocks, the second one is where a
run over the remaining tokens would begin.

So what is wrong with some statements does not change how those behind the next terminator are read
(`statements_are_isolated`).
-/

namespace LoxFront.Parse

/-! ### Cursors with the same tokens ahead -/

/-- The kinds of tokens at which every statement ends. -/
def EndsAll (k : Kind) : Prop := k = .endOfLine ∨ k = .semicolon ∨ k = .endOfInput

/-- The tokens ahead are the same up to a token `x`, and then those of `us` or `vs`. -/
def Beside (x : Token) (us vs : List Token) (c d : Cursor) : Prop :=
  ∃ ts, (∀ t ∈ ts, t.kind ≠ .endOfInput) ∧ c.rest = ts ++ x :: us ∧ d.rest = ts ++ x :: vs

/-- The token `x` and the line ends behind it have been passed. -/
def Beyond (x : Token) (us vs : List Token) (c d : Cursor) : Prop :=
  x.kind ≠ .endOfInput ∧ c.rest = us.dropWhile (·.kind == .endOfLine) ∧
    d.rest = vs.dropWhile (·.kind == .endOfLine)

namespace Beside

variable {x : Token} {us vs : List Token} {c d : Cursor}

theorem current (h : Beside x us vs c d) : d.current = c.current := by
  obtain ⟨ts, -, hc, hd⟩ := h
  cases ts with
  | nil => exact (List.cons.inj hd).1.trans (List.cons.inj hc).1.symm
  | cons t ts => exact (List.cons.inj hd).1.trans (List.cons.inj hc).1.symm

theorem kind (h : Beside x us vs c d) : d.kind = c.kind := congrArg Token.kind h.current

/-- One token is passed by both: one in front of `x`, or `x` itself. -/
theorem advance (h : Beside x us vs c d) (hk : c.kind ≠ .endOfInput) :
    Beside x us vs c.advance d.advance ∨
      c.current = x ∧ c.advance.rest = us ∧ d.advance.rest = vs := by
  have hc' := (Cursor.rest_advance hk).1
  have hd' := (Cursor.rest_advance (h.kind ▸ hk)).1
  obtain ⟨ts, hts, hc, hd⟩ := h
  rw [hc] at hc'
  rw [hd] at hd'
  cases ts with
  | nil =>
    obtain ⟨hx, hus⟩ := List.cons.inj hc'
    exact .inr ⟨hx.symm, hus.symm, (List.cons.inj hd').2.symm⟩
  | cons t ts =>
    exact .inl ⟨ts, fun u hu => hts u (List.mem_cons_of_mem _ hu), (List.cons.inj hc').2.symm,
      (List.cons.inj hd').2.symm⟩

/-- A token that does not end every statement is in front of `x`. -/
theorem advance_of_not_ends (hx : EndsAll x.kind) (h : Beside x us vs c d)
    (hk : ¬ EndsAll c.kind) : Beside x us vs c.advance d.advance := by
  rcases h.advance fun h => hk (.inr (.inr h)) with h | ⟨hc, -⟩
  · exact h
  · rw [Cursor.kind, hc] at hk
    exact absurd hx hk

/-- Line ends in front of `x` are passed by both, and `x` too if it is one. -/
theorem skipLines (h : Beside x us vs c d) :
    Beside x us vs c.skipLines d.skipLines ∨ Beyond x us vs c.skipLines d.skipLines := by
  obtain ⟨ts, hts, hc, hd⟩ := h
  have hc' := c.skipLines_rest
  have hd' := d.skipLines_rest
  rw [hc, List.dropWhile_append] at hc'
  rw [hd, List.dropWhile_append] at hd'
  -- either only line ends stand in front of `x`, or something else does, and both stop there
  by_cases he : (ts.dropWhile (·.kind == .endOfLine)).isEmpty = true
  · rw [if_pos he, List.dropWhile_cons] at hc' hd'
    by_cases hx : x.kind = .endOfLine
    · rw [if_pos (by simp [hx])] at hc' hd'
      exact .inr ⟨by rw [hx]; decide, hc', hd'⟩
    · rw [if_neg (by simp [hx])] at hc' hd'
      exact .inl ⟨[], by simp, hc', hd'⟩
  · rw [if_neg he] at hc' hd'
    exact .inl ⟨_, fun t ht => hts t ((List.dropWhile_suffix _).subset ht), hc', hd'⟩

/-- A terminator is one for both. -/
theorem passTerminator (h : Beside x us vs c d) (depth : Int) :
    (c.passTerminator? depth = none ∧ d.passTerminator? depth = none) ∨
      ∃ c' d', c.passTerminator? depth = some c' ∧ d.passTerminator? depth = some d' ∧
        (Beside x us vs c' d' ∨ Beyond x us vs c' d') := by
  have hk := h.kind
  simp only [Cursor.passTerminator?_eq_some, Cursor.passTerminator?_eq_none, hk]
  by_cases hend : c.kind = .endOfInput
  · exact .inr ⟨c, d, .inl ⟨hend, rfl⟩, .inl ⟨hend, rfl⟩, .inl h⟩
  by_cases hline : c.kind = .endOfLine
  · exact .inr ⟨_, _, .inr (.inl ⟨hline, rfl⟩), .inr (.inl ⟨hline, rfl⟩), h.skipLines⟩
  by_cases hsemi : c.kind = .semicolon
  · refine .inr ⟨_, _, .inr (.inr (.inl ⟨hsemi, rfl⟩)), .inr (.inr (.inl ⟨hsemi, rfl⟩)), ?_⟩
    rcases h.advance hend with h | ⟨hx, hc, hd⟩
    · exact h.skipLines
    · refine .inr ⟨?_, by rw [Cursor.skipLines_rest, hc], by rw [Cursor.skipLines_rest, hd]⟩
      rw [← hx]
      exact hend
  by_cases hbrace : c.kind = .rightBrace ∧ 0 < depth
  · exact .inr ⟨c, d, .inr (.inr (.inr ⟨hbrace, rfl⟩)), .inr (.inr (.inr ⟨hbrace, rfl⟩)), .inl h⟩
  · exact .inl ⟨⟨hend, hline, hsemi, hbrace⟩, hend, hline, hsemi, hbrace⟩

theorem not_ends_of_no_terminator {depth : Int} (h : c.passTerminator? depth = none) :
    ¬ EndsAll c.kind := by
  obtain ⟨hend, hline, hsemi, -⟩ := Cursor.passTerminator?_eq_none.1 h
  rintro (h | h | h)
  · exact hline h
  · exact hsemi h
  · exact hend h

theorem seek (hx : EndsAll x.kind) (h : Beside x us vs c d) (depth : Int) :
    Beside x us vs (c.seek depth) (d.seek depth) ∨ Beyond x us vs (c.seek depth) (d.seek depth) := by
  induction c using Cursor.advance_induction generalizing d with
  | h c ih =>
    rw [Cursor.seek_eq depth c, Cursor.seek_eq depth d, h.kind]
    split_ifs with hk
    · exact .inl h
    · rcases h.passTerminator depth with ⟨hc, hd⟩ | ⟨c', d', hc, hd, hcd⟩
      · rw [hc, hd]
        exact ih (fun h => hk (.inl h)) (h.advance_of_not_ends hx (not_ends_of_no_terminator hc))
      · rw [hc, hd]
        exact hcd

/-- After an error both go on at the same place. -/
theorem resume (hx : EndsAll x.kind) (h : Beside x us vs c d) (depth : Int) :
    Beside x us vs (c.resume depth) (d.resume depth) ∨
      Beyond x us vs (c.resume depth) (d.resume depth) := by
  rw [Cursor.resume, Cursor.resume]
  rcases h.passTerminator depth with ⟨hc, hd⟩ | ⟨c', d', hc, hd, hcd⟩
  · rw [hc, hd]
    exact (h.advance_of_not_ends hx (not_ends_of_no_terminator hc)).seek hx depth
  · rw [hc, hd]
    exact hcd

end Beside

/-! ### States with the same tokens ahead -/

/-- Two states have cursors related by `K`, and the same errors behind those of the past, `ms` and
`ns`. -/
structure Aligned (K : Cursor → Cursor → Prop) (ms ns : List Mismatch) (s t : State) : Prop where
  cursors : K s.cursor t.cursor
  depth : t.depth = s.depth
  errors : ∃ l, s.mismatches = ms ++ l ∧ t.mismatches = ns ++ l
  silent : s.hook.interrupts = [] ∧ t.hook.interrupts = []

namespace Aligned

variable {K K' : Cursor → Cursor → Prop} {ms ns : List Mismatch} {s t : State}

theorem moveTo {c d : Cursor} (h : Aligned K ms ns s t) (hcd : K' c d) :
    Aligned K' ms ns (s.moveTo c) (t.moveTo d) := ⟨hcd, h.depth, h.errors, h.silent⟩

theorem reported (m : Mismatch) (h : Aligned K ms ns s t) :
    Aligned K ms ns (s.reported m) (t.reported m) := by
  obtain ⟨l, hs, ht⟩ := h.errors
  exact ⟨h.cursors, h.depth, ⟨l ++ [m], by simp [hs], by simp [ht]⟩, h.silent⟩

theorem resumed (h : Aligned K ms ns s t)
    (hcd : K' (s.cursor.resume s.depth) (t.cursor.resume s.depth)) :
    Aligned K' ms ns s.resumed t.resumed := by
  refine ⟨?_, h.depth, by simpa using h.errors, h.silent⟩
  show K' (s.cursor.resume s.depth) (t.cursor.resume t.depth)
  rw [h.depth]
  exact hcd

theorem opened (h : Aligned K ms ns s t) : Aligned K ms ns s.opened t.opened :=
  ⟨h.cursors, congrArg (· + 1) h.depth, h.errors, h.silent⟩

theorem closed (h : Aligned K ms ns s t) : Aligned K ms ns s.closed t.closed :=
  ⟨h.cursors, congrArg (· - 1) h.depth, h.errors, h.silent⟩

/-- Line ends are passed by both, and `x` too if it is one of them. -/
theorem begun {x : Token} {us vs : List Token} (h : Aligned (Beside x us vs) ms ns s t) :
    Aligned (Beside x us vs) ms ns s.begun t.begun ∨
      Aligned (Beyond x us vs) ms ns s.begun t.begun :=
  h.cursors.skipLines.imp h.moveTo h.moveTo

end Aligned

theorem not_ends_of_taken {k : Kind} (h : Taken k) : ¬ EndsAll k := by
  obtain ⟨hline, hsemi, -, hend⟩ := h
  rintro (h | h | h)
  · exact hline h
  · exact hsemi h
  · exact hend h

/-- Behind `x` the first run is at the end of its input. -/
theorem Beyond.atEnd {x : Token} {us vs : List Token} {c d : Cursor} (h : Beyond x us vs c d)
    (hus : x.kind ≠ .endOfInput → ∃ e : Token, us = [e] ∧ e.kind = .endOfInput) :
    c.kind = .endOfInput := by
  obtain ⟨hne, hc, -⟩ := h
  obtain ⟨e, rfl, he⟩ := hus hne
  have hrest : c.rest = [e] := by simpa [he] using hc
  rw [Cursor.kind, (List.cons.inj hrest).1, he]

/-- Two runs over the same tokens up to `x`, of which the first one finds the end of its input behind
`x` if that is not the end already. -/
def aligned (x : Token) (us vs : List Token) (ms ns : List Mismatch) (hx : EndsAll x.kind)
    (hus : x.kind ≠ .endOfInput → ∃ e : Token, us = [e] ∧ e.kind = .endOfInput) :
    StatementSimulation where
  relabel := id
  Near := Aligned (Beside x us vs) ms ns
  Apart := Aligned (Beyond x us vs) ms ns
  Lost s := x.kind ≠ .endOfInput ∧ ∃ m ∈ s.mismatches, m.token.kind = .endOfInput
  kind_relabel := kind_id
  literal_relabel := literal_id
  hooks h := (hookStops_of_silent h.silent.2).trans (hookStops_of_silent h.silent.1).symm
  same h _ := h.cursors.current
  next h hk := .inl (h.moveTo (h.cursors.advance_of_not_ends hx (not_ends_of_taken hk)))
  failed rule message h := by
    rw [h.cursors.current]
    exact h.reported _
  rejected h _ := h.reported _
  lost h := fun ⟨hne, m, hm, hk⟩ => ⟨hne, m, h.mismatches.subset hm, hk⟩
  brace h := by rw [h.cursors.kind]
  stop h := by rw [h.cursors.kind]
  passed h hk := by
    refine .inl (h.moveTo (h.cursors.advance_of_not_ends hx ?_))
    rw [hk]
    rintro (h | h | h) <;> cases h
  entered h hk := by
    have hnext := h.cursors.advance_of_not_ends hx (by rw [hk]; rintro (h | h | h) <;> cases h)
    exact (h.moveTo hnext).opened.begun.imp_right .inl
  ended h := by
    rw [h.depth]
    refine (h.cursors.passTerminator _).imp_right ?_
    rintro ⟨c, d, hc, hd, hcd⟩
    exact ⟨c, d, hc, hd, hcd.imp h.moveTo fun h' => .inl (h.moveTo h')⟩
  resumed h := (h.cursors.resume hx _).imp h.resumed fun h' => .inl (h.resumed h')
  closed h := h.closed
  closed_apart h := h.closed
  closed_lost h := h
  atEnd h := h.cursors.atEnd hus
  unclosed h := by
    obtain ⟨hne, -⟩ := h.cursors
    refine ⟨hne, ⟨.token, "Expect '\x7d' after block.", _⟩, ?_, h.cursors.atEnd hus⟩
    rw [State.mismatches_reported]
    exact List.mem_append_right _ List.mem_cons_self

/-! ### Programs -/

/-- Nothing but the tokens ahead and the depth decides how entries are read on. -/
theorem steps_again {s t u : State} {p : Program} {ts : List Token} {e : Token}
    (hp : Steps s p u) (hts : ∀ t ∈ ts, t.kind ≠ .endOfInput) (he : e.kind = .endOfInput)
    (hs : s.cursor.rest = ts ++ [e]) (ht : t.cursor.rest = ts ++ [e]) (hd : t.depth = s.depth)
    (hsilent : s.hook.interrupts = [] ∧ t.hook.interrupts = []) :
    ∃ v l, Steps t p v ∧ v.cursor.kind = u.cursor.kind ∧ u.mismatches = s.mismatches ++ l ∧
      v.mismatches = t.mismatches ++ l := by
  let S := aligned e [] [] s.mismatches t.mismatches (.inr (.inr he)) fun h => absurd he h
  have hnear : S.Near s t := ⟨⟨ts, hts, hs, ht⟩, hd, ⟨[], by simp, by simp⟩, hsilent⟩
  obtain ⟨v, hv, hnear' | hapart⟩ := S.steps hp (.inl hnear) fun h => h.1 he
  · obtain ⟨l, hul, hvl⟩ := hnear'.errors
    exact ⟨v, l, Program.map_id p ▸ hv, hnear'.cursors.kind, hul, hvl⟩
  · exact absurd he hapart.cursors.1

/-- A run that ends behind `x` without an error there is begun in the same way by a run that does not
end behind `x`, and that goes on from the tokens behind. -/
theorem steps_beyond {s t u : State} {p : Program} {ts vs : List Token} {x e : Token}
    (hp : Steps s.begun p u) (hu : u.cursor.kind = .endOfInput)
    (hm : ∀ m ∈ u.mismatches, m.token.kind ≠ .endOfInput) (hts : ∀ t ∈ ts, t.kind ≠ .endOfInput)
    (hx : x.kind = .endOfLine ∨ x.kind = .semicolon) (he : e.kind = .endOfInput)
    (hs : s.cursor.rest = ts ++ x :: [e]) (ht : t.cursor.rest = ts ++ x :: vs)
    (hd : t.depth = s.depth) (herr : t.mismatches = s.mismatches)
    (hsilent : s.hook.interrupts = [] ∧ t.hook.interrupts = []) :
    ∃ v, Steps t.begun p v ∧ v.cursor.rest = vs.dropWhile (·.kind == .endOfLine) ∧
      v.mismatches = u.mismatches := by
  have hne : x.kind ≠ .endOfInput := by
    rcases hx with h | h <;> rw [h] <;> decide
  let S := aligned x [e] vs s.mismatches s.mismatches (hx.imp_right .inl) fun _ => ⟨e, rfl, he⟩
  have hnear : S.Near s t := ⟨⟨ts, hts, hs, ht⟩, hd, ⟨[], by simp, by simp [herr]⟩, hsilent⟩
  obtain ⟨v, hv, hnear' | hapart⟩ :=
    S.steps hp (hnear.begun.imp_right .inl) fun ⟨_, m, hmem, hk⟩ => hm m hmem hk
  · -- The end of the input is not in front of `x`.
    obtain ⟨us, hus, hrest, -⟩ := hnear'.cursors
    have hcur : u.cursor.current ∈ us ∨ u.cursor.current = x := by
      cases us with
      | nil => exact .inr (List.cons.inj hrest).1
      | cons w us => exact .inl ((List.cons.inj hrest).1 ▸ List.mem_cons_self)
    rcases hcur with h | h
    · exact absurd hu (hus _ h)
    · rw [Cursor.kind, h] at hu
      exact absurd hu hne
  · obtain ⟨l, hul, hvl⟩ := hapart.errors
    exact ⟨v, Program.map_id p ▸ hv, hapart.cursors.2.2, hvl.trans hul.symm⟩

/-- **What is wrong in front of a terminator does not matter behind it.**  The tokens `as` and `bs`
are parsed each for itself, the first ones with a line end or a semicolon `x` behind them.  If no
error in these is at the end of the input, so that no block is left open, then parsing both together
gives the entries and the errors of the one followed by those of the other. -/
theorem statements_are_isolated (as bs : List Token) (x e e' : Token)
    (has : ∀ t ∈ as, t.kind ≠ .endOfInput) (hbs : ∀ t ∈ bs, t.kind ≠ .endOfInput)
    (hx : x.kind = .endOfLine ∨ x.kind = .semicolon) (he : e.kind = .endOfInput)
    (he' : e'.kind = .endOfInput) :
    ∃ p ms q ns, Gives 0 (as ++ [x] ++ [e]) p ms ∧ Gives 0 (bs ++ [e']) q ns ∧
      ((∀ m ∈ ms, m.token.kind ≠ .endOfInput) →
        Gives 0 (as ++ [x] ++ bs ++ [e']) (p ++ q) (ms ++ ns)) := by
  obtain ⟨p, ms, hp⟩ := exists_gives 0 (as ++ [x]) he
  obtain ⟨q, ns, hq⟩ := exists_gives 0 bs he'
  refine ⟨p, ms, q, ns, hp, hq, fun hms => ?_⟩
  obtain ⟨s₁, hs₁⟩ := exists_start (as ++ [x]) he {}
  obtain ⟨s₂, hs₂⟩ := exists_start bs he' {}
  obtain ⟨s₃, hs₃⟩ := exists_start (as ++ [x] ++ bs) he' {}
  have hbudget : ∀ n, budgetSpent 0 n = false := fun n => rfl
  obtain ⟨t₁, hp₁, hend₁, rfl⟩ := (gives_iff_steps hs₁ (hbudget _)).1 hp
  obtain ⟨t₂, hp₂, hend₂, rfl⟩ := (gives_iff_steps hs₂ (hbudget _)).1 hq
  rw [gives_iff_steps hs₃ (hbudget _)]
  obtain ⟨hr₁, hd₁, hm₁, hh₁⟩ := of_start hs₁
  obtain ⟨hr₂, hd₂, hm₂, hh₂⟩ := of_start hs₂
  obtain ⟨hr₃, hd₃, hm₃, hh₃⟩ := of_start hs₃
  obtain ⟨u, hu, hru, hmu⟩ := steps_beyond hp₁ hend₁ hms has hx he (by simp [hr₁])
    (by simp [hr₃] : s₃.cursor.rest = as ++ x :: (bs ++ [e'])) (hd₃.trans hd₁.symm)
    (hm₃.trans hm₁.symm) ⟨hh₁, hh₃⟩
  -- from there on the tokens ahead are those in front of the first entry of the other tokens
  have hdrop : (bs ++ [e']).dropWhile (·.kind == .endOfLine) =
      bs.dropWhile (·.kind == .endOfLine) ++ [e'] := by
    rw [List.dropWhile_append]
    split_ifs with h
    · simp [List.isEmpty_iff.1 h, he']
    · rfl
  have hts : ∀ t ∈ bs.dropWhile (·.kind == .endOfLine), t.kind ≠ .endOfInput := fun t ht =>
    hbs t ((List.dropWhile_suffix _).subset ht)
  have hr₂' : s₂.begun.cursor.rest = bs.dropWhile (·.kind == .endOfLine) ++ [e'] := by
    show s₂.cursor.skipLines.rest = _
    rw [Cursor.skipLines_rest, hr₂, hdrop]
  have hdu : u.depth = s₂.begun.depth := hu.follows.depth.trans (hd₃.trans hd₂.symm)
  have hhu : u.hook.interrupts = [] := hu.follows.hook ▸ hh₃
  obtain ⟨v, l, hv, hkv, hlt, hlv⟩ := steps_again hp₂ hts he' hr₂' (hru.trans hdrop) hdu ⟨hh₂, hhu⟩
  refine ⟨v, hu.append hv, hkv.trans hend₂, ?_⟩
  rw [hlv, hmu, hlt, show s₂.begun.mismatches = [] from hm₂, List.nil_append]

/-- A parenthesis without an expression leaves a gap in front of a variable. -/
theorem isolated_after_a_stray_paren :
    let r : Token := ⟨.rightParen, ")", .nil, 1, 1⟩
    let semicolon : Token := ⟨.semicolon, ";", .nil, 1, 2⟩
    let stop : Token := ⟨.endOfInput, "", .nil, 1, 3⟩
    let x : Token := ⟨.identifier, "x", .nil, 1, 3⟩
    let stop' : Token := ⟨.endOfInput, "", .nil, 1, 4⟩
    Gives 0 [r, semicolon, stop] [none] [⟨.expression, "Expect expression.", r⟩] ∧
      Gives 0 [r, semicolon, x, stop'] [none, some (.expression (.reference x))]
        [⟨.expression, "Expect expression.", r⟩] := by
  intro r semicolon stop x stop'
  obtain ⟨p, ms, q, ns, hp, hq, hboth⟩ := statements_are_isolated [r] [x] semicolon stop stop'
    (by decide) (by decide) (.inr rfl) rfl rfl
  have hfirst : Gives 0 [r, semicolon, stop] [none] [⟨.expression, "Expect expression.", r⟩] :=
    ⟨_, _, rfl, rfl, rfl⟩
  have hsecond : Gives 0 [x, stop'] [some (.expression (.reference x))] [] := ⟨_, _, rfl, rfl, rfl⟩
  obtain ⟨rfl, rfl⟩ := hp.unique hfirst
  obtain ⟨rfl, rfl⟩ := hq.unique hsecond
  exact ⟨hfirst, hboth (by decide)⟩
end LoxFront.Parse
