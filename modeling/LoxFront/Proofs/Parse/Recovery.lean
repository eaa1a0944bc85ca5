import LoxFront.Proofs.Parse.Lookahead

/-!
# Where recovery stops

Recovery from an error is described here by indices of the stream, without a cursor: where a statement
can end (`CanEnd`), where a terminator that begins at an index is over (`Terminator`), and which index
is the first one with a token that recovery looks for (`FirstFrom`).

A token that can end a statement is the end of recovery, together with the rest of its terminator.
Any other token is passed, whatever it is, and recovery goes on to the first token behind it that
begins a statement, which is left in place, or ends one (`recovery_stops`).
-/

namespace LoxFront.Parse

/-! ### Indices -/

/-- The kind of the token at an index of a stream. -/
def kindAt? (ts : List Token) (i : Nat) : Option Kind := ts[i]?.map Token.kind

/-- A statement can end at a token of this kind: a closing brace ends one inside of a block only. -/
def CanEnd (depth : Int) (k : Kind) : Prop :=
  k = .endOfInput ∨ k = .endOfLine ∨ k = .semicolon ∨ k = .rightBrace ∧ 0 < depth

/-- A token of this kind begins a statement, or can end one. -/
def Halts (depth : Int) (k : Kind) : Prop := k.startsStatement = true ∨ CanEnd depth k

/-- From one index on there are line ends, and something else at the other. -/
structure LineRun (ts : List Token) (i j : Nat) : Prop where
  le : i ≤ j
  lines : ∀ m, i ≤ m → m < j → kindAt? ts m = some .endOfLine
  stops : ∃ k, kindAt? ts j = some k ∧ k ≠ .endOfLine

/-- A terminator begins at one index, and the other is just behind it. -/
inductive Terminator (ts : List Token) (depth : Int) : Nat → Nat → Prop
  | endOfInput {i : Nat} : kindAt? ts i = some .endOfInput → Terminator ts depth i i
  | brace {i : Nat} : kindAt? ts i = some .rightBrace → 0 < depth → Terminator ts depth i i
  | lines {i j : Nat} : kindAt? ts i = some .endOfLine → LineRun ts (i + 1) j →
      Terminator ts depth i j
  | semicolon {i j : Nat} : kindAt? ts i = some .semicolon → LineRun ts (i + 1) j →
      Terminator ts depth i j

/-- From one index on, the other is the first with a token of a kind that is looked for. -/
structure FirstFrom (ts : List Token) (p : Kind → Prop) (i j : Nat) : Prop where
  le : i ≤ j
  found : ∃ k, kindAt? ts j = some k ∧ p k
  least : ∀ m k, i ≤ m → m < j → kindAt? ts m = some k → ¬ p k

theorem FirstFrom.of_succ {ts : List Token} {p : Kind → Prop} {i j : Nat} {k : Kind}
    (hk : kindAt? ts i = some k) (hp : ¬ p k) (h : FirstFrom ts p (i + 1) j) :
    FirstFrom ts p i j := by
  obtain ⟨hle, hfound, hleast⟩ := h
  refine ⟨by omega, hfound, fun m k' hm hlt hk' => ?_⟩
  rcases Nat.eq_or_lt_of_le hm with rfl | hlt'
  · rw [hk] at hk'
    cases hk'
    exact hp
  · exact hleast m k' hlt' hlt hk'

/-! ### Cursors -/

section Cursors

variable {depth : Int} {c d : Cursor}

theorem kindAt?_index (c : Cursor) : kindAt? c.stream c.index = some c.kind := by
  have h := c.getElem?_stream 0
  rw [Nat.add_zero] at h
  rw [kindAt?, h]
  rfl

theorem index_advance (h : c.kind ≠ .endOfInput) : c.advance.index = c.index + 1 := by
  rw [Cursor.index, (Cursor.rest_advance h).2, List.length_cons, Cursor.index]

theorem stream_advance (c : Cursor) : c.advance.stream = c.stream := (Cursor.Leads.advance c).stream_eq

/-- Line ends are passed up to the first token that is none. -/
theorem lineRun_skipLines (c : Cursor) : LineRun c.stream c.index c.skipLines.index := by
  induction c using Cursor.advance_induction with
  | h c ih =>
    by_cases h : c.kind = .endOfLine
    · have hk : c.kind ≠ .endOfInput := by rw [h]; decide
      obtain ⟨hle, hlines, hstop⟩ := ih hk
      rw [stream_advance, index_advance hk] at *
      rw [Cursor.skipLines_of_line h]
      refine ⟨by omega, fun m hm hlt => ?_, hstop⟩
      rcases Nat.eq_or_lt_of_le hm with rfl | hlt'
      · rw [kindAt?_index, h]
      · exact hlines m hlt' hlt
    · rw [Cursor.skipLines_of_ne h]
      exact ⟨Nat.le_refl _, fun m hm hlt => by omega, _, kindAt?_index c, h⟩

/-- What is passed as a terminator is one. -/
theorem terminator_of_pass (h : c.passTerminator? depth = some d) :
    Terminator c.stream depth c.index d.index := by
  have hindex := kindAt?_index c
  -- behind a token that does not end the input there may be line ends
  have hrun : c.kind ≠ .endOfInput → LineRun c.stream (c.index + 1) c.advance.skipLines.index := by
    intro hend
    have hlines := lineRun_skipLines c.advance
    rwa [stream_advance, index_advance hend] at hlines
  rcases Cursor.passTerminator?_eq_some.1 h with ⟨hk, rfl⟩ | ⟨hk, rfl⟩ | ⟨hk, rfl⟩ | ⟨⟨hk, hd⟩, rfl⟩
  · exact .endOfInput (hk ▸ hindex)
  · rw [Cursor.skipLines_of_line hk]
    exact .lines (hk ▸ hindex) (hrun (by rw [hk]; decide))
  · exact .semicolon (hk ▸ hindex) (hrun (by rw [hk]; decide))
  · exact .brace (hk ▸ hindex) hd

theorem canEnd_iff : CanEnd depth c.kind ↔ ∃ d, c.passTerminator? depth = some d := by
  rw [← Option.ne_none_iff_exists', Ne, Cursor.passTerminator?_eq_none, CanEnd]
  simp only [ne_eq, not_and_or, not_or, not_not]

/-- The place where recovery stops once it has found what it looks for: in front of a token that begins
a statement, and else behind a terminator. -/
def StopsAt (ts : List Token) (depth : Int) (j n : Nat) : Prop :=
  (∃ k, kindAt? ts j = some k ∧ k.startsStatement = true) ∧ n = j ∨ Terminator ts depth j n

/-- The search goes on to the first token that begins a statement or ends one. -/
theorem seek_stops (depth : Int) (c : Cursor) :
    ∃ j, FirstFrom c.stream (Halts depth) c.index j ∧
      StopsAt c.stream depth j (c.seek depth).index := by
  induction c using Cursor.advance_induction with
  | h c ih =>
    have hk := kindAt?_index c
    have here : Halts depth c.kind → FirstFrom c.stream (Halts depth) c.index c.index := fun h =>
      ⟨Nat.le_refl _, ⟨_, hk, h⟩, fun m _ hm hlt => by omega⟩
    rw [Cursor.seek_eq]
    split_ifs with hstop
    · rcases hstop with he | hs
      · exact ⟨c.index, here (.inr (.inl he)), .inr (.endOfInput (he ▸ hk))⟩
      · exact ⟨c.index, here (.inl hs), .inl ⟨⟨_, hk, hs⟩, rfl⟩⟩
    rw [not_or] at hstop
    cases hd : c.passTerminator? depth with
    | some d => exact ⟨c.index, here (.inr (canEnd_iff.2 ⟨d, hd⟩)), .inr (terminator_of_pass hd)⟩
    | none =>
      obtain ⟨j, hfirst, hstops⟩ := ih hstop.1
      rw [stream_advance, index_advance hstop.1] at hfirst
      rw [stream_advance] at hstops
      refine ⟨j, hfirst.of_succ hk ?_, hstops⟩
      rintro (hs | hend)
      · exact hstop.2 hs
      · obtain ⟨d, hd'⟩ := canEnd_iff.1 hend
        rw [hd] at hd'
        cases hd'

end Cursors

/-! ### What is passed -/

/-- A terminator has no token in it that begins a statement. -/
theorem Terminator.not_startsStatement {ts : List Token} {depth : Int} {i j m : Nat} {k : Kind}
    (h : Terminator ts depth i j) (hm : i ≤ m) (hlt : m < j) (hk : kindAt? ts m = some k) :
    k.startsStatement = false := by
  have hrun : ∀ {k₀ : Kind}, kindAt? ts i = some k₀ → k₀.startsStatement = false →
      LineRun ts (i + 1) j → k.startsStatement = false := by
    intro k₀ hk₀ hstart hlines
    rcases Nat.eq_or_lt_of_le hm with rfl | hlt'
    · rw [hk₀] at hk
      cases hk
      exact hstart
    · rw [hlines.lines m hlt' hlt] at hk
      cases hk
      rfl
  cases h with
  | endOfInput => omega
  | brace => omega
  | lines hk₀ hlines => exact hrun hk₀ rfl hlines
  | semicolon hk₀ hlines => exact hrun hk₀ rfl hlines

/-- **Where recovery stops.**  It changes nothing but the cursor: no error is recorded, and as many
blocks are open as before.  A terminator under the cursor is passed to its end, and nothing else.
Otherwise recovery goes on to the first token behind the current one that begins a statement or can
end one: it stops in front of the former, and just behind the terminator that begins with the latter.
So of all tokens behind the one under the cursor it passes none that begins a statement, and none that
can end one except those of a single terminator, behind which it stops. -/
theorem recovery_stops (s : State) :
    let ts := s.cursor.stream
    let i := s.cursor.index
    ∃ c : Cursor, resume s = .ok () ((s.moveTo c).note (.resumed c.current)) ∧ c.stream = ts ∧
      ((s.moveTo c).note (.resumed c.current)).mismatches = s.mismatches ∧
      ((s.moveTo c).note (.resumed c.current)).depth = s.depth ∧
      (CanEnd s.depth s.cursor.kind → Terminator ts s.depth i c.index) ∧
      (¬ CanEnd s.depth s.cursor.kind →
        ∃ j, FirstFrom ts (Halts s.depth) (i + 1) j ∧ StopsAt ts s.depth j c.index) ∧
      ∀ m k, i < m → m < c.index → kindAt? ts m = some k →
        k.startsStatement = false ∧
          (CanEnd s.depth k → ∃ j, i ≤ j ∧ j ≤ m ∧ Terminator ts s.depth j c.index) := by
  intro ts i
  refine ⟨s.cursor.resume s.depth, rfl, (Cursor.Leads.resume _ _).stream_eq,
    State.mismatches_resumed s, rfl, ?_⟩
  cases hd : s.cursor.passTerminator? s.depth with
  | some d =>
    have hterm := terminator_of_pass hd
    have hresume : s.cursor.resume s.depth = d := by rw [Cursor.resume, hd]
    rw [hresume]
    refine ⟨fun _ => hterm, fun h => absurd (canEnd_iff.2 ⟨d, hd⟩) h, fun m k hm hlt hk => ?_⟩
    exact ⟨hterm.not_startsStatement (Nat.le_of_lt hm) hlt hk,
      fun _ => ⟨i, Nat.le_refl i, Nat.le_of_lt hm, hterm⟩⟩
  | none =>
    have hnot : ¬ CanEnd s.depth s.cursor.kind := by
      rw [canEnd_iff, hd]
      rintro ⟨_, h⟩
      cases h
    have hend : s.cursor.kind ≠ .endOfInput := fun h => hnot (.inl h)
    have hresume : s.cursor.resume s.depth = s.cursor.advance.seek s.depth := by
      rw [Cursor.resume, hd]
    obtain ⟨j, hfirst, hstops⟩ := seek_stops s.depth s.cursor.advance
    rw [stream_advance, index_advance hend] at hfirst
    rw [stream_advance, ← hresume] at hstops
    refine ⟨fun h => absurd h hnot, fun _ => ⟨j, hfirst, hstops⟩, fun m k hm hlt hk => ?_⟩
    by_cases hmj : m < j
    · -- in front of the first token that is looked for there is none
      have hhalts := hfirst.least m k hm hmj hk
      rw [Halts, not_or, Bool.not_eq_true] at hhalts
      exact ⟨hhalts.1, fun h => absurd h hhalts.2⟩
    · rcases hstops with ⟨-, hn⟩ | hterm
      · omega
      · have hij := hfirst.le
        exact ⟨hterm.not_startsStatement (Nat.not_lt.1 hmj) hlt hk,
          fun _ => ⟨j, by omega, Nat.not_lt.1 hmj, hterm⟩⟩

/-- Inside of a block recovery passes the keyword under the cursor and a name and a comma behind it,
and then a semicolon with the line end behind it; the closing brace is left in place. -/
theorem recovery_stops_in_front_of_a_brace :
    let print : Token := ⟨.keyword .kPrint, "print", .nil, 1, 1⟩
    let x : Token := ⟨.identifier, "x", .nil, 1, 7⟩
    let comma : Token := ⟨.comma, ",", .nil, 1, 8⟩
    let semicolon : Token := ⟨.semicolon, ";", .nil, 1, 9⟩
    let line : Token := ⟨.endOfLine, "\n", .nil, 1, 10⟩
    let r : Token := ⟨.rightBrace, "\x7d", .nil, 2, 1⟩
    let stop : Token := ⟨.endOfInput, "", .nil, 2, 2⟩
    let ts := [print, x, comma, semicolon, line, r, stop]
    ∃ s : State, s.cursor.stream = ts ∧ s.depth = 1 ∧ s.cursor.index = 0 ∧
      ∃ j, FirstFrom ts (Halts 1) 1 j ∧ StopsAt ts 1 j 5 ∧ (final (resume s)).cursor.index = 5 := by
  intro print x comma semicolon line r stop ts
  let s : State :=
    { cursor := ⟨[], print, [x, comma, semicolon, line, r, stop], rfl⟩, depth := 1 }
  obtain ⟨c, hrun, -, -, -, -, hbehind, -⟩ := recovery_stops s
  have hindex : (final (resume s)).cursor.index = 5 := by decide
  have hc : c.index = 5 := by rwa [hrun] at hindex
  have hprint : ¬ CanEnd s.depth s.cursor.kind := by
    show ¬ CanEnd 1 (.keyword .kPrint)
    simp [CanEnd]
  obtain ⟨j, hfirst, hstops⟩ := hbehind hprint
  rw [hc] at hstops
  exact ⟨s, rfl, rfl, rfl, j, hfirst, hstops, hindex⟩

end LoxFront.Parse
