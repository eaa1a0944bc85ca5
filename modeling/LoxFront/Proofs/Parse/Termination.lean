import LoxFront.Proofs.Parse.Fuel

/-!
# Termination

With a hook that never interrupts, a statement always ends (`statement_ok`), and it leaves the cursor
where it was just when the cursor is stuck.  A program starts outside of all blocks, and every
statement restores the depth, so only the end of the input is stuck: each round of reading a program
moves the cursor on, and there are at most as many entries as tokens in front of the first
end-of-input token (`rounds_advance_and_program_ends`).
-/

namespace LoxFront.Parse

/-! ### Statements end -/

/-- Only the hook makes a statement give nothing. -/
theorem statement_error {s t : State} {e : Exit} (h : statement s = .error e t) :
    e = .interrupted := by
  cases e with
  | endless => exact absurd h (statement_ne_endless s t)
  | interrupted => rfl
  | mismatch m =>
    -- a mismatch never leaves a statement: recovery begins there
    rw [statement_run, statementWithin, recovering_run] at h
    split at h <;> try cases h
    rename_i hne _
    exact absurd rfl (hne m)

/-- **A statement ends** unless the hook interrupts it. -/
theorem statement_ok {s : State} (hh : s.hook.interrupts = []) : ∃ o t, statement s = .ok o t := by
  cases ho : statement s with
  | ok o t => exact ⟨o, t, rfl⟩
  | error e t =>
    obtain rfl := statement_error ho
    exact absurd hh ((kept_follows.statement.error ho).interrupts rfl)

theorem hookStops_of_silent {s : State} (hh : s.hook.interrupts = []) : s.hookStops = false := by
  simp [State.hookStops, hh]

theorem statement_cursor_eq_iff {s t : State} {o : Option Stmt} (hh : s.hook.interrupts = [])
    (h : statement s = .ok o t) : t.cursor = s.cursor ↔ s.cursor.Stuck s.depth := by
  constructor
  · intro hc
    by_contra hs
    have := statementWithin_left_lt h hs
    rw [hc] at this
    omega
  · intro hs
    obtain ⟨u, hu, hc⟩ := statementWithin_of_stuck s.cursor.left hs (hookStops_of_silent hh)
    rw [statement_run, hu] at h
    cases h
    exact hc

theorem index_lt_of_left_lt {s t : State} (h : Follows s t) (hl : t.cursor.left < s.cursor.left) :
    s.cursor.index < t.cursor.index := by
  have := h.leads.index_add_left
  omega

/-! ### Programs end -/

/-- The number of tokens in front of the next end-of-input token. -/
def untilEnd (c : Cursor) : Nat := c.rest.findIdx (·.kind == .endOfInput)

theorem untilEnd_of_leads {c d : Cursor} (h : c.Leads d) :
    untilEnd c + d.left = untilEnd d + c.left := by
  obtain ⟨taken, ht, hr, -⟩ := h.exists_taken
  have hlen := congrArg List.length hr
  simp only [Cursor.length_rest, List.length_append] at hlen
  have hnone : taken.findIdx (·.kind == .endOfInput) = taken.length := by
    rw [List.findIdx_eq_length]
    simpa using ht
  have hfind : untilEnd c = untilEnd d + taken.length := by
    rw [untilEnd, hr, List.findIdx_append, hnone, if_neg (Nat.lt_irrefl _), untilEnd]
  omega

theorem not_stuck {s : State} (hd : s.depth ≤ 0) (hk : s.cursor.kind ≠ .endOfInput) :
    ¬ s.cursor.Stuck s.depth := by
  rintro (h | ⟨-, h⟩)
  · exact hk h
  · omega

/-- Outside of all blocks the fuel lasts to the end of the input. -/
theorem entries_ok (budget : Nat) {fuel : Nat} {s : State} (hh : s.hook.interrupts = [])
    (hd : s.depth ≤ 0) (hf : s.cursor.left < fuel) :
    ∃ p t, entries budget fuel s = .ok p t ∧ p.length ≤ untilEnd s.cursor := by
  induction fuel generalizing s with
  | zero => omega
  | succ fuel ih =>
    rw [entries_run]
    split_ifs with hk
    · exact ⟨[], s, rfl, Nat.zero_le _⟩
    obtain ⟨o, t, ho⟩ := statement_ok hh
    have hfol := kept_follows.statement.ok ho
    have hlt := statementWithin_left_lt ho (not_stuck hd hk)
    have huntil := untilEnd_of_leads hfol.leads
    simp only [ho]
    split_ifs with hb
    -- the entry just read has taken a token, whether or not the budget stops the work
    · refine ⟨[o], t.stopped, rfl, ?_⟩
      simp only [List.length_singleton]
      omega
    · obtain ⟨p, u, hp, hlen⟩ := ih (s := t) (by rw [hfol.hook]; exact hh)
        (by rw [hfol.depth]; exact hd) (by omega)
      refine ⟨o :: p, u, by rw [bind_of_ok hp]; rfl, ?_⟩
      simp only [List.length_cons]
      omega

theorem lt_rounds (budget : Nat) (s : State) : s.cursor.left < s.rounds budget := by
  unfold State.rounds
  omega

/-- **A program ends**, with at most one entry for each token in front of the first end-of-input
token. -/
theorem program_ok (budget : Nat) {s : State} (hh : s.hook.interrupts = []) (hd : s.depth ≤ 0) :
    ∃ p t, program budget s = .ok p t ∧ p.length ≤ untilEnd s.cursor := by
  have hskip : s.cursor.Leads s.begun.cursor := .skipLines _
  have huntil := untilEnd_of_leads hskip
  have hleft := hskip.left_le
  obtain ⟨p, t, hp, hlen⟩ := entries_ok budget (s := s.begun) hh hd (lt_rounds budget s.begun)
  refine ⟨p, _, by rw [program_run, hp], ?_⟩
  omega

/-! ### Rounds -/

/-- The states in which a round of reading a program begins, after the line ends in front. -/
inductive RoundBegins (budget : Nat) (s : State) : State → Prop
  | first : RoundBegins budget s s.begun
  | next {t u : State} {o : Option Stmt} : RoundBegins budget s t → t.cursor.kind ≠ .endOfInput →
      statement t = .ok o u → budgetSpent budget u.mismatches.length = false →
      RoundBegins budget s u

theorem RoundBegins.follows {budget : Nat} {s t : State} (h : RoundBegins budget s t) :
    Follows s t := by
  induction h with
  | first => exact ⟨.skipLines _, rfl, rfl, List.prefix_rfl⟩
  | next _ _ ho _ ih => exact ih.trans (kept_follows.statement.ok ho)

/-- **Every round moves on, and so the work ends.**  A statement leaves the cursor where it was just
at the end of the input, or inside a block at a closing brace.  So every round of reading a block and,
from the start of any stream and with any budget, every round of reading a program moves on, and the
program has at most as many entries as there are tokens in front of the first end-of-input token. -/
theorem rounds_advance_and_program_ends :
    (∀ s : State, s.hook.interrupts = [] → ∃ o t, statement s = .ok o t ∧
      (t.cursor = s.cursor ↔
        s.cursor.kind = .endOfInput ∨ s.cursor.kind = .rightBrace ∧ 0 < s.depth) ∧
      (t.cursor ≠ s.cursor → s.cursor.index < t.cursor.index)) ∧
    (∀ (fuel : Nat) (s t : State) (o : Option Stmt), statementWithin fuel s = .ok o t →
      s.cursor.kind ≠ .rightBrace → s.cursor.kind ≠ .endOfInput →
        s.cursor.index < t.cursor.index) ∧
    ∀ (budget : Nat) (tokens : List Token) (s : State), start? tokens {} = some s →
      (∀ t, RoundBegins budget s t → t.cursor.kind ≠ .endOfInput →
        ∃ o u, statement t = .ok o u ∧ t.cursor.index < u.cursor.index) ∧
      ∃ p t, program budget s = .ok p t ∧ p.length ≤ tokens.findIdx (·.kind == .endOfInput) := by
  refine ⟨fun s hh => ?_, fun fuel s t o ho hb he => ?_, fun budget tokens s hs => ?_⟩
  · obtain ⟨o, t, ho⟩ := statement_ok hh
    have hiff := statement_cursor_eq_iff hh ho
    refine ⟨o, t, ho, hiff, fun hne => ?_⟩
    exact index_lt_of_left_lt (kept_follows.statement.ok ho)
      (statementWithin_left_lt ho fun h => hne (hiff.2 h))
  · refine index_lt_of_left_lt ((kept_follows.statementWithin fuel).ok ho) ?_
    exact statementWithin_left_lt ho fun h => h.elim he fun h => hb h.1
  · obtain ⟨hrest, -, hd, -, -, hhook⟩ := start?_eq_some.1 hs
    have hh : s.hook.interrupts = [] := by rw [hhook]
    constructor
    · intro t ht hk
      have hfol := ht.follows
      obtain ⟨o, u, ho⟩ := statement_ok (s := t) (by rw [hfol.hook]; exact hh)
      have hlt := statementWithin_left_lt ho (not_stuck (Int.le_of_eq (hfol.depth.trans hd)) hk)
      exact ⟨o, u, ho, index_lt_of_left_lt (kept_follows.statement.ok ho) hlt⟩
    · obtain ⟨p, t, hp, hlen⟩ := program_ok budget hh (by omega)
      exact ⟨p, t, hp, by rwa [untilEnd, hrest] at hlen⟩

/-- A closing brace outside of all blocks holds up neither a statement nor a program, and an empty
statement does not hold up a block. -/
theorem rounds_advance_at_a_brace :
    let brace : Token := ⟨.rightBrace, "\x7d", .nil, 1, 1⟩
    let semicolon : Token := ⟨.semicolon, ";", .nil, 1, 2⟩
    let stop : Token := ⟨.endOfInput, "", .nil, 1, 3⟩
    (∃ s o t, start? [brace, semicolon, stop] {} = some s ∧ statement s = .ok o t ∧
      s.cursor.index < t.cursor.index ∧ ∃ p u, program 0 s = .ok p u ∧ p.length ≤ 2) ∧
    ∃ o t, statement { cursor := ⟨[brace], semicolon, [stop], rfl⟩, depth := 1 } = .ok o t ∧
      1 < t.cursor.index := by
  intro brace semicolon stop
  obtain ⟨hstmt, hblock, hprog⟩ := rounds_advance_and_program_ends
  constructor
  · let s : State := { cursor := ⟨[], brace, [semicolon, stop], rfl⟩ }
    obtain ⟨o, t, ho, hiff, hadv⟩ := hstmt s rfl
    have hne : t.cursor ≠ s.cursor := fun h => absurd (hiff.1 h) (by decide)
    obtain ⟨hround, p, u, hp, hlen⟩ := hprog 0 [brace, semicolon, stop] s rfl
    obtain ⟨_, _, _, _⟩ := hround _ .first (by decide)
    exact ⟨s, o, t, rfl, ho, hadv hne, p, u, hp, hlen⟩
  · let s : State := { cursor := ⟨[brace], semicolon, [stop], rfl⟩, depth := 1 }
    obtain ⟨o, t, ho, -⟩ := hstmt s rfl
    exact ⟨o, t, ho, hblock 2 s t o ho (by decide) (by decide)⟩

end LoxFront.Parse
