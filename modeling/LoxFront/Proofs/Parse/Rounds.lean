import LoxFront.Proofs.Parse.Termination

/-!
# Entry by entry

`Steps s p t` says that the entries `p` are read from one state to the other, with no regard to a
budget.  As long as the budget is not spent, a program is what is read up to the end of the input
(`program_of_steps`, `steps_of_program`); when it is spent behind an entry, the program ends there
(`program_of_spent`).

`Gives budget tokens p ms` is the whole of it: the tokens are parsed from the start, with a hook that
never interrupts, into the entries `p` and the errors `ms`.
-/

namespace LoxFront.Parse

/-- Entries are read one after another, each in front of the end of the input. -/
inductive Steps : State → Program → State → Prop
  | nil (s : State) : Steps s [] s
  | cons {s t u : State} {o : Option Stmt} {p : Program} : s.cursor.kind ≠ .endOfInput →
      statement s = .ok o t → Steps t p u → Steps s (o :: p) u

namespace Steps

variable {s t u : State} {p q : Program}

theorem follows (h : Steps s p t) : Follows s t := by
  induction h with
  | nil s => exact .refl s
  | cons _ ho _ ih => exact (kept_follows.statement.ok ho).trans ih

theorem append (h : Steps s p t) (h' : Steps t q u) : Steps s (p ++ q) u := by
  induction h with
  | nil => exact h'
  | cons hk ho _ ih => exact .cons hk ho (ih h')

/-- There is one way only to read on. -/
theorem unique (h : Steps s p t) (h' : Steps s p u) : t = u := by
  induction h with
  | nil s =>
    cases h'
    rfl
  | cons _ ho _ ih =>
    cases h' with
    | cons _ ho' hp =>
      rw [ho] at ho'
      cases ho'
      exact ih hp

end Steps

/-! ### Budgets -/

theorem budgetSpent_zero (budget : Nat) : budgetSpent budget 0 = false := by
  cases budget <;> rfl

theorem budgetSpent_mono {budget m n : Nat} (h : budgetSpent budget n = false) (hm : m ≤ n) :
    budgetSpent budget m = false := by
  simp only [budgetSpent, Bool.and_eq_false_iff, decide_eq_false_iff_not] at h ⊢
  omega

/-- Steps are rounds: while the budget lasts, what is read behind them comes behind their entries. -/
theorem entries_append (budget : Nat) {fuel : Nat} {s t : State} {p : Program} (h : Steps s p t)
    (hb : budgetSpent budget t.mismatches.length = false) (hd : s.depth ≤ 0)
    (hf : s.cursor.left < fuel) :
    ∃ rest, t.cursor.left < rest ∧
      ∀ q u, entries budget rest t = .ok q u → entries budget fuel s = .ok (p ++ q) u := by
  induction h generalizing fuel with
  | nil s => exact ⟨fuel, hf, fun q u hq => hq⟩
  | @cons s t u o p hk ho hp ih =>
    obtain ⟨fuel, rfl⟩ : ∃ i, fuel = i + 1 := ⟨fuel - 1, by omega⟩
    have hlt := statementWithin_left_lt ho (not_stuck hd hk)
    have hdepth := (kept_follows.statement.ok ho).depth
    have hbt := budgetSpent_mono hb hp.follows.mismatches.length_le
    obtain ⟨rest, hrest, hread⟩ := ih hb (by omega) (show t.cursor.left < fuel by omega)
    refine ⟨rest, hrest, fun q v hq => ?_⟩
    simp only [entries_run, hk, ho, hbt, Bool.false_eq_true, ↓reduceIte]
    rw [bind_of_ok (hread q v hq)]
    rfl

/-- While the budget lasts, entries are read up to the end of the input. -/
theorem entries_of_steps (budget : Nat) {fuel : Nat} {s t : State} {p : Program} (h : Steps s p t)
    (ht : t.cursor.kind = .endOfInput) (hb : budgetSpent budget t.mismatches.length = false)
    (hd : s.depth ≤ 0) (hf : s.cursor.left < fuel) : entries budget fuel s = .ok p t := by
  obtain ⟨rest, hrest, hread⟩ := entries_append budget h hb hd hf
  obtain ⟨rest, rfl⟩ : ∃ i, rest = i + 1 := ⟨rest - 1, by omega⟩
  have hend : entries budget (rest + 1) t = .ok [] t := by rw [entries_run, if_pos ht]
  rw [hread [] t hend, List.append_nil]

/-- When the budget is spent behind an entry, that is the last one. -/
theorem entries_of_spent (budget : Nat) {fuel : Nat} {s t u : State} {p : Program}
    {o : Option Stmt} (h : Steps s p t) (hb : budgetSpent budget t.mismatches.length = false)
    (hk : t.cursor.kind ≠ .endOfInput) (ho : statement t = .ok o u)
    (hu : budgetSpent budget u.mismatches.length = true) (hd : s.depth ≤ 0)
    (hf : s.cursor.left < fuel) : entries budget fuel s = .ok (p ++ [o]) u.stopped := by
  obtain ⟨rest, hrest, hread⟩ := entries_append budget h hb hd hf
  obtain ⟨rest, rfl⟩ : ∃ i, rest = i + 1 := ⟨rest - 1, by omega⟩
  refine hread [o] u.stopped ?_
  simp only [entries_run, hk, ho, hu, ↓reduceIte]

/-- Entries are read step by step, up to the end of the input if the budget is not spent. -/
theorem steps_of_entries {budget fuel : Nat} {s t : State} {p : Program}
    (h : entries budget fuel s = .ok p t)
    (hb : budgetSpent budget t.mismatches.length = false) :
    Steps s p t ∧ t.cursor.kind = .endOfInput := by
  induction fuel generalizing s p with
  | zero => cases h
  | succ fuel ih =>
    rw [entries_run] at h
    split_ifs at h with hk
    · cases h
      exact ⟨.nil _, hk⟩
    cases ho : statement s with
    | error e u => rw [ho] at h; cases h
    | ok o u =>
      simp only [ho] at h
      split_ifs at h with hbu
      · -- The error count does not change when the budget is found to be spent.
        cases h
        rw [State.mismatches_stopped, hbu] at hb
        cases hb
      · obtain ⟨rest, v, hrest, hv⟩ := bind_ok.1 h
        cases hv
        obtain ⟨hsteps, hend⟩ := ih hrest
        exact ⟨.cons hk ho hsteps, hend⟩

/-! ### Whole programs -/

/-- While the budget lasts, a program is read up to the end of the input. -/
theorem program_of_steps {budget : Nat} {s t : State} {p : Program} (h : Steps s.begun p t)
    (ht : t.cursor.kind = .endOfInput) (hb : budgetSpent budget t.mismatches.length = false)
    (hd : s.depth ≤ 0) :
    program budget s = .ok p (t.note (.finished p.length t.mismatches.length)) := by
  rw [program_run, entries_of_steps budget h ht hb hd (lt_rounds budget s.begun)]

/-- When the budget is spent behind an entry, that is the last one of the program. -/
theorem program_of_spent {budget : Nat} {s t u : State} {p : Program} {o : Option Stmt}
    (h : Steps s.begun p t) (hb : budgetSpent budget t.mismatches.length = false)
    (hk : t.cursor.kind ≠ .endOfInput) (ho : statement t = .ok o u)
    (hu : budgetSpent budget u.mismatches.length = true) (hd : s.depth ≤ 0) :
    program budget s = .ok (p ++ [o])
      (u.stopped.note (.finished (p ++ [o]).length u.stopped.mismatches.length)) := by
  rw [program_run, entries_of_spent budget h hb hk ho hu hd (lt_rounds budget s.begun)]

/-- If the budget is not spent, a program is read step by step, up to the end of the input. -/
theorem steps_of_program {budget : Nat} {s t : State} {p : Program} (h : program budget s = .ok p t)
    (hb : budgetSpent budget t.mismatches.length = false) :
    ∃ u, Steps s.begun p u ∧ u.cursor.kind = .endOfInput ∧
      t = u.note (.finished p.length u.mismatches.length) := by
  rw [program_run] at h
  split at h
  · cases h
  rename_i q u hu
  cases h
  rw [State.mismatches_finished] at hb
  obtain ⟨hsteps, hend⟩ := steps_of_entries hu hb
  exact ⟨u, hsteps, hend, rfl⟩

/-- Parsed from the start, the tokens give the entries `p` and the errors `ms`. -/
def Gives (budget : Nat) (tokens : List Token) (p : Program) (ms : List Mismatch) : Prop :=
  ∃ s t, start? tokens {} = some s ∧ program budget s = .ok p t ∧ t.mismatches = ms

/-- The entries and the errors that tokens give, if a run over them ends. -/
def given? (budget : Nat) (tokens : List Token) : Option (Program × List Mismatch) :=
  match start? tokens {} with
  | none => none
  | some s =>
    match program budget s with
    | .ok p t => some (p, t.mismatches)
    | .error _ _ => none

theorem given?_eq_some {budget : Nat} {tokens : List Token} {p : Program} {ms : List Mismatch} :
    given? budget tokens = some (p, ms) ↔ Gives budget tokens p ms := by
  unfold given?
  constructor
  · intro h
    split at h
    · cases h
    rename_i s hs
    split at h
    · rename_i q t hp
      cases h
      exact ⟨s, t, hs, hp, rfl⟩
    · cases h
  · rintro ⟨s, t, hs, hp, rfl⟩
    rw [hs]
    simp only [hp]

instance (budget : Nat) (tokens : List Token) (p : Program) (ms : List Mismatch) :
    Decidable (Gives budget tokens p ms) :=
  decidable_of_iff _ given?_eq_some

/-- The state in front of a stream, with a hook that never interrupts. -/
theorem of_start {tokens : List Token} {s : State} (hs : start? tokens {} = some s) :
    s.cursor.rest = tokens ∧ s.depth = 0 ∧ s.mismatches = [] ∧ s.hook.interrupts = [] := by
  obtain ⟨hrest, -, hd, hev, -, hhook⟩ := start?_eq_some.1 hs
  refine ⟨hrest, hd, ?_, by rw [hhook]⟩
  rw [State.mismatches, hev]
  rfl

theorem exists_gives (budget : Nat) (tokens : List Token) {e : Token} (he : e.kind = .endOfInput) :
    ∃ p ms, Gives budget (tokens ++ [e]) p ms := by
  obtain ⟨s, hs⟩ := exists_start tokens he {}
  obtain ⟨-, hd, -, hh⟩ := of_start hs
  obtain ⟨p, t, hp, -⟩ := program_ok budget hh (by omega)
  exact ⟨p, _, s, t, hs, hp, rfl⟩

theorem Gives.unique {budget : Nat} {tokens : List Token} {p q : Program} {ms ns : List Mismatch}
    (h : Gives budget tokens p ms) (h' : Gives budget tokens q ns) : p = q ∧ ms = ns := by
  obtain ⟨s, t, hs, hp, rfl⟩ := h
  obtain ⟨s', t', hs', hp', rfl⟩ := h'
  rw [hs] at hs'
  cases hs'
  rw [hp] at hp'
  cases hp'
  exact ⟨rfl, rfl⟩

/-- While the budget lasts, a program is what is read step by step. -/
theorem gives_iff_steps {budget : Nat} {tokens : List Token} {p : Program} {ms : List Mismatch}
    {s : State} (hs : start? tokens {} = some s) (hb : budgetSpent budget ms.length = false) :
    Gives budget tokens p ms ↔
      ∃ t, Steps s.begun p t ∧ t.cursor.kind = .endOfInput ∧ t.mismatches = ms := by
  obtain ⟨-, hd, -⟩ := of_start hs
  constructor
  · rintro ⟨s', t, hs', hp, rfl⟩
    rw [hs] at hs'
    cases hs'
    obtain ⟨u, hsteps, hend, rfl⟩ := steps_of_program hp hb
    exact ⟨u, hsteps, hend, (State.mismatches_finished _ _ u).symm⟩
  · rintro ⟨t, hsteps, hend, rfl⟩
    exact ⟨s, _, hs, program_of_steps hsteps hend hb (by omega), State.mismatches_finished _ _ t⟩

end LoxFront.Parse
