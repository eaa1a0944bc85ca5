import LoxFront.Proofs.Parse.Rounds
import LoxFront.Proofs.Token.Stream
import Mathlib.Data.Nat.Find
import Mathlib.Logic.Function.Iterate

/-!
# What a budget does

A budget for errors is looked at behind each entry of a program, and nowhere else.  So a run with a
budget is a run without one up to the first entry behind which the budget is spent
(`budget_only_truncates`): the entries and errors so far are the same, and there is one warning more,
at the token where reading stops.

Within one entry nobody looks at the budget.  A statement has one error at most beside rejected
assignments if it is no block (`statement_adds`), but a block may have any number of errors in it.  So
the errors in front of the last entry stay below the budget (`budget_bounds_the_errors`), and a single
block can exceed it (`a_block_exceeds_the_budget`).
-/

namespace LoxFront.Parse

/-! ### Warnings -/

namespace State

theorem warnings_note (e : Event) (s : State) :
    (s.note e).warnings = s.warnings ++ e.warning?.toList := by
  simp only [warnings, note, List.filterMap_append, List.filterMap_cons, List.filterMap_nil]
  cases e.warning? <;> rfl

@[simp] theorem warnings_reported (m : Mismatch) (s : State) :
    (s.reported m).warnings = s.warnings :=
  (warnings_note (.reported m) s).trans (List.append_nil _)

@[simp] theorem warnings_resumed (s : State) : s.resumed.warnings = s.warnings :=
  (warnings_note _ _).trans (List.append_nil _)

@[simp] theorem warnings_finished (n k : Nat) (s : State) :
    (s.note (.finished n k)).warnings = s.warnings :=
  (warnings_note _ _).trans (List.append_nil _)

/-- The warning that the budget is spent, at the token where reading stops. -/
theorem warnings_stopped (s : State) :
    s.stopped.warnings = s.warnings ++
      [("too many errors (" ++ toString s.mismatches.length ++ "), parsing stopped",
        s.cursor.current)] := warnings_note _ _

end State

/-- **Statements do not warn.** -/
theorem kept_warnings : Kept (fun s t => t.warnings = s.warnings)
    (fun s _ t => t.warnings = s.warnings) where
  refl _ := rfl
  trans h h' := h'.trans h
  next _ _ := rfl
  rejected _ h _ := (State.warnings_reported _ _).trans h
  after h h' := h'.trans h
  failed _ _ s _ := State.warnings_reported _ s
  stopped _ h _ := (State.warnings_reported _ _).trans h
  endless _ := rfl
  recover h := (State.warnings_resumed _).trans h
  block h := h
  blockExit h := h

theorem Steps.warnings {s t : State} {p : Program} (h : Steps s p t) : t.warnings = s.warnings := by
  induction h with
  | nil => rfl
  | cons _ ho _ ih => exact ih.trans (kept_warnings.statement.ok ho)

/-! ### Behind each entry -/

/-- The state behind a number of statements, with no regard to a budget. -/
def behind (m : Nat) (s : State) : State := (fun s => final (statement s))^[m] s

theorem behind_succ (m : Nat) (s : State) : behind (m + 1) s = final (statement (behind m s)) :=
  Function.iterate_succ_apply' _ m s

theorem behind_succ_of_ok {s t : State} {o : Option Stmt} (ho : statement s = .ok o t) (m : Nat) :
    behind (m + 1) s = behind m t := by
  rw [behind, Function.iterate_succ_apply, ho]
  rfl

/-- The number of errors behind a number of statements. -/
def errorsBehind (m : Nat) (s : State) : Nat := (behind m s).mismatches.length

namespace Steps

variable {s t : State} {p : Program} {m k : Nat}

/-- The entries are parted by the state behind some of them. -/
theorem behind (h : Steps s p t) (hm : m ≤ p.length) :
    Steps s (p.take m) (behind m s) ∧ Steps (Parse.behind m s) (p.drop m) t := by
  induction h generalizing m with
  | nil s =>
    obtain rfl : m = 0 := Nat.le_zero.1 hm
    exact ⟨.nil s, .nil s⟩
  | @cons s t u o p hk ho hp ih =>
    cases m with
    | zero => exact ⟨.nil s, .cons hk ho hp⟩
    | succ m =>
      obtain ⟨hfront, hrest⟩ := ih (Nat.le_of_succ_le_succ hm)
      rw [behind_succ_of_ok ho]
      exact ⟨.cons hk ho hfront, hrest⟩

theorem behind_length (h : Steps s p t) : Parse.behind p.length s = t := by
  have hall := (h.behind (Nat.le_refl _)).1
  rw [List.take_length] at hall
  exact hall.unique h

/-- Each entry is a statement in front of the end of the input. -/
theorem entry (h : Steps s p t) (hm : m < p.length) :
    (Parse.behind m s).cursor.kind ≠ .endOfInput ∧
      statement (Parse.behind m s) = .ok p[m] (Parse.behind (m + 1) s) := by
  have hrest := (h.behind (Nat.le_of_lt hm)).2
  rw [List.drop_eq_getElem_cons hm] at hrest
  cases hrest with
  | cons hk ho _ =>
    exact ⟨hk, by rw [behind_succ, ho]; rfl⟩

/-- Errors are only added from entry to entry. -/
theorem mismatches_prefix (h : Steps s p t) (hm : m ≤ p.length) :
    (Parse.behind m s).mismatches <+: t.mismatches :=
  (h.behind hm).2.follows.mismatches

theorem errorsBehind_le (h : Steps s p t) (hm : m ≤ p.length) :
    errorsBehind m s ≤ t.mismatches.length := (h.mismatches_prefix hm).length_le

end Steps

/-! ### Where the budget is spent -/

theorem budgetSpent_iff {budget n : Nat} (hb : 0 < budget) :
    budgetSpent budget n = true ↔ budget ≤ n := by
  simp [budgetSpent, hb]

theorem budgetSpent_eq_false_iff {budget n : Nat} (hb : 0 < budget) :
    budgetSpent budget n = false ↔ n < budget := by
  rw [← Bool.not_eq_true, budgetSpent_iff hb, Nat.not_le]

/-- Behind `m` statements, and not before, the budget `n` is spent. -/
def SpentBehind (n m : Nat) (s : State) : Prop :=
  n ≤ errorsBehind m s ∧ ∀ k < m, errorsBehind k s < n

/-- Some number of entries is the first one behind which the budget is spent, if it ever is. -/
theorem Steps.exists_spentBehind {s t : State} {p : Program} {n : Nat} (h : Steps s p t)
    (hn : n ≤ t.mismatches.length) : ∃ m ≤ p.length, SpentBehind n m s := by
  classical
  have hall : n ≤ errorsBehind p.length s := by rwa [errorsBehind, h.behind_length]
  have hex : ∃ m, n ≤ errorsBehind m s := ⟨_, hall⟩
  refine ⟨Nat.find hex, Nat.find_min' hex hall, Nat.find_spec hex, fun k hk => ?_⟩
  exact Nat.lt_of_not_le (Nat.find_min hex hk)

section Starts

variable {s u : State} {p : Program} {n m : Nat}

/-- A run without a budget reads entries up to the end of the input. -/
theorem exists_steps (hd : s.depth ≤ 0) (hh : s.hook.interrupts = []) :
    ∃ p u, Steps s.begun p u ∧ u.cursor.kind = .endOfInput ∧
      program 0 s = .ok p (u.note (.finished p.length u.mismatches.length)) := by
  obtain ⟨p, t, hp, -⟩ := program_ok 0 hh hd
  obtain ⟨u, hsteps, hend, rfl⟩ := steps_of_program hp rfl
  exact ⟨p, u, hsteps, hend, hp⟩

/-- With no errors at first, a budget is spent behind an entry only. -/
theorem SpentBehind.exists_succ (h : SpentBehind n m s.begun) (hn : 0 < n) (hs : s.mismatches = []) :
    ∃ k, m = k + 1 := by
  cases m with
  | succ k => exact ⟨k, rfl⟩
  | zero =>
    have hzero : errorsBehind 0 s.begun = 0 := congrArg List.length hs
    have := h.1
    omega

/-- **A budget ends a run behind the first entry that spends it.** -/
theorem program_of_spentBehind (h : Steps s.begun p u) (hm : m ≤ p.length)
    (hspent : SpentBehind n m s.begun) (hn : 0 < n) (hs : s.mismatches = []) (hd : s.depth ≤ 0) :
    program n s = .ok (p.take m) ((behind m s.begun).stopped.note
      (.finished m (behind m s.begun).mismatches.length)) := by
  obtain ⟨k, rfl⟩ := hspent.exists_succ hn hs
  obtain ⟨hk, ho⟩ := h.entry hm
  have hfront := (h.behind (Nat.le_of_lt hm)).1
  have hbefore := (budgetSpent_eq_false_iff hn).2 (hspent.2 k (Nat.lt_succ_self k))
  have hbehind := (budgetSpent_iff hn).2 hspent.1
  have hrun := program_of_spent hfront hbefore hk ho hbehind hd
  rw [List.take_append_getElem] at hrun
  rw [hrun, List.length_take_of_le hm, State.mismatches_stopped]

theorem Steps.warnings_start {tokens : List Token} (hs : start? tokens {} = some s)
    (h : Steps s.begun p u) : u.warnings = [] := by
  obtain ⟨-, -, -, hev, -⟩ := start?_eq_some.1 hs
  rw [h.warnings]
  show s.events.filterMap Event.warning? = []
  rw [hev, List.filterMap_nil]

/-- **A budget hides no error but those behind the first.**  A run with a budget is without errors just
if a run without one is. -/
theorem mismatches_eq_nil_iff {tokens : List Token} {t t' : State} {q : Program}
    (hs : start? tokens {} = some s) (hp : program 0 s = .ok p t) (hq : program n s = .ok q t') :
    t'.mismatches = [] ↔ t.mismatches = [] := by
  obtain ⟨-, hd, hm, hh⟩ := of_start hs
  have hd' : s.depth ≤ 0 := Int.le_of_eq hd
  obtain ⟨p', u, hsteps, hend, hp'⟩ := exists_steps hd' hh
  obtain ⟨rfl, rfl⟩ : p' = p ∧ _ = t := EStateM.Result.ok.inj (hp'.symm.trans hp)
  rcases Nat.eq_zero_or_pos n with rfl | hn
  · obtain ⟨-, rfl⟩ := EStateM.Result.ok.inj (hp.symm.trans hq)
    exact Iff.rfl
  rw [State.mismatches_finished]
  rcases Nat.lt_or_ge u.mismatches.length n with hlt | hle
  · have hrun := program_of_steps hsteps hend ((budgetSpent_eq_false_iff hn).2 hlt) hd'
    obtain ⟨-, rfl⟩ := EStateM.Result.ok.inj (hrun.symm.trans hq)
    rw [State.mismatches_finished]
  -- both runs have at least one error, which the budget allows for
  · obtain ⟨m, hmp, hspent⟩ := hsteps.exists_spentBehind hle
    have hrun := program_of_spentBehind hsteps hmp hspent hn hm hd'
    obtain ⟨-, rfl⟩ := EStateM.Result.ok.inj (hrun.symm.trans hq)
    rw [State.mismatches_finished, State.mismatches_stopped]
    have hsome : n ≤ (behind m s.begun).mismatches.length := hspent.1
    refine iff_of_false (fun h => ?_) fun h => ?_
    · rw [h, List.length_nil] at hsome
      omega
    · rw [h, List.length_nil] at hle
      omega

end Starts

/-- **A budget only truncates.**  Without a budget the tokens give the entries `p`.  If there are fewer
than `n` errors, a run with the budget `n` ends in the same state, and there are no warnings.
Otherwise it gives the entries up to the first one behind which there are `n` errors, the errors up to
there, and one warning at the token where it stops, outside of all blocks. -/
theorem budget_only_truncates {tokens : List Token} {s : State} (hs : start? tokens {} = some s)
    {n : Nat} (hn : 0 < n) :
    ∃ p t, program 0 s = .ok p t ∧ t.warnings = [] ∧
      (∀ m ≤ p.length, Steps s.begun (p.take m) (behind m s.begun)) ∧
      (t.mismatches.length < n → program n s = .ok p t) ∧
      (n ≤ t.mismatches.length → ∃ m ≤ p.length, SpentBehind n m s.begun ∧
        ∃ t', program n s = .ok (p.take m) t' ∧
          t'.mismatches <+: t.mismatches ∧ t'.mismatches.length = errorsBehind m s.begun ∧
          t'.warnings = [("too many errors (" ++ toString t'.mismatches.length ++
            "), parsing stopped", t'.cursor.current)] ∧
          t'.depth = 0) := by
  obtain ⟨-, hd, hm, hh⟩ := of_start hs
  have hd' : s.depth ≤ 0 := Int.le_of_eq hd
  obtain ⟨p, u, hsteps, hend, hp⟩ := exists_steps hd' hh
  refine ⟨p, _, hp, ?_, fun m hm => (hsteps.behind hm).1, fun hlt => ?_, fun hle => ?_⟩
  · rw [State.warnings_finished, hsteps.warnings_start hs]
  · rw [State.mismatches_finished] at hlt
    exact program_of_steps hsteps hend ((budgetSpent_eq_false_iff hn).2 hlt) hd'
  · rw [State.mismatches_finished] at hle ⊢
    obtain ⟨m, hmp, hspent⟩ := hsteps.exists_spentBehind hle
    have hfront := (hsteps.behind hmp).1
    refine ⟨m, hmp, hspent, _, program_of_spentBehind hsteps hmp hspent hn hm hd', ?_⟩
    rw [State.mismatches_finished, State.mismatches_stopped, State.warnings_finished,
      State.warnings_stopped, hfront.warnings_start hs]
    exact ⟨hsteps.mismatches_prefix hmp, rfl, rfl, hfront.follows.depth.trans hd⟩

/-- A block with two errors in it spends a budget of one error, and the statement behind it is not
read. -/
theorem truncated_behind_a_block :
    let l : Token := ⟨.leftBrace, "\x7b", .nil, 1, 1⟩
    let paren : Token := ⟨.rightParen, ")", .nil, 1, 2⟩
    let semicolon : Token := ⟨.semicolon, ";", .nil, 1, 3⟩
    let paren' : Token := ⟨.rightParen, ")", .nil, 1, 4⟩
    let r : Token := ⟨.rightBrace, "\x7d", .nil, 1, 5⟩
    let line : Token := ⟨.endOfLine, "\n", .nil, 1, 6⟩
    let print : Token := ⟨.keyword .kPrint, "print", .nil, 2, 1⟩
    let stop : Token := ⟨.endOfInput, "", .nil, 2, 6⟩
    ∃ s, start? [l, paren, semicolon, paren', r, line, print, stop] {} = some s ∧
      ∃ p t m t', program 0 s = .ok p t ∧ t.mismatches.length = 3 ∧ SpentBehind 1 m s.begun ∧
        program 1 s = .ok (p.take m) t' ∧ t'.mismatches <+: t.mismatches ∧
        t'.mismatches.length = errorsBehind m s.begun ∧ t'.warnings.length = 1 ∧ t'.depth = 0 := by
  intro l paren semicolon paren' r line print stop
  let s : State := { cursor := ⟨[], l, [paren, semicolon, paren', r, line, print, stop], rfl⟩ }
  have hs : start? [l, paren, semicolon, paren', r, line, print, stop] {} = some s := rfl
  obtain ⟨p, t, hp, -, -, -, hstop⟩ := budget_only_truncates hs (n := 1) (by decide)
  have hthree : t.mismatches.length = 3 := by
    have hrun : (final (program 0 s)).mismatches.length = 3 := by decide +kernel
    rwa [hp] at hrun
  obtain ⟨m, -, hspent, t', hp', hpre, hlen, hwarn, hdepth⟩ := hstop (by omega)
  exact ⟨s, hs, p, t, m, t', hp, hthree, hspent, hp', hpre, hlen, by rw [hwarn]; rfl, hdepth⟩

/-! ### Errors of one statement -/

/-- From one state to the other at most so many errors are recorded that are not rejected
assignments. -/
def Adds (k : Nat) (s t : State) : Prop :=
  ∃ l, t.mismatches = s.mismatches ++ l ∧ (l.filter (·.rule ≠ .assignment)).length ≤ k

namespace Adds

variable {s t u : State} {j k : Nat}

theorem refl (k : Nat) (s : State) : Adds k s s :=
  ⟨[], (List.append_nil _).symm, Nat.zero_le k⟩

theorem trans (h : Adds j s t) (h' : Adds k t u) : Adds (j + k) s u := by
  obtain ⟨l, hl, hj⟩ := h
  obtain ⟨l', hl', hk⟩ := h'
  refine ⟨l ++ l', by rw [hl', hl, List.append_assoc], ?_⟩
  rw [List.filter_append, List.length_append]
  omega

theorem mono (h : Adds j s t) (hj : j ≤ k) : Adds k s t :=
  h.imp fun _ hl => ⟨hl.1, Nat.le_trans hl.2 hj⟩

theorem reported (m : Mismatch) (s : State) :
    Adds (if m.rule = .assignment then 0 else 1) s (s.reported m) := by
  refine ⟨[m], State.mismatches_reported m s, ?_⟩
  split_ifs with hm <;> simp [hm]

/-- A rejected assignment is not counted. -/
theorem rejected (equals : Token) (s : State) : Adds 0 s (s.reported (.invalidAssignment equals)) :=
  reported (.invalidAssignment equals) s

theorem resumed (h : Adds k s t) : Adds k s t.resumed :=
  h.imp fun _ hl => ⟨(State.mismatches_resumed t).trans hl.1, hl.2⟩

/-- Where no assignment is rejected, all the errors are counted. -/
theorem length_le (h : Adds k s t)
    (hr : ∀ m ∈ t.mismatches.drop s.mismatches.length, m.rule ≠ .assignment) :
    t.mismatches.length ≤ s.mismatches.length + k := by
  obtain ⟨l, hl, hk⟩ := h
  rw [hl, List.drop_left] at hr
  have hall : l.filter (·.rule ≠ .assignment) = l :=
    List.filter_eq_self.2 fun m hm => decide_eq_true (hr m hm)
  rw [hall] at hk
  rw [hl, List.length_append]
  omega

end Adds

/-- Inside of a statement no error is recorded but rejected assignments, and one that ends it. -/
theorem keptInside_adds : KeptInside (Adds 0) (fun s _ t => Adds 1 s t) where
  refl := .refl 0
  trans := .trans
  next _ _ := .refl 0 _
  rejected _ h _ := h.trans (.rejected _ _)
  after h h' := (Nat.zero_add 1) ▸ h.trans h'
  failed rule message s hr := by
    have hadds := Adds.reported ⟨rule, message, s.cursor.current⟩ s
    rwa [if_neg hr] at hadds
  stopped _ h _ := (h.trans (.rejected _ _)).mono (Nat.zero_le 1)
  endless s := .refl 1 s

/-- **A statement has one error at most** beside rejected assignments, if it is no block. -/
theorem statement_adds {s t : State} {o : Option Stmt} (hs : s.cursor.kind ≠ .leftBrace)
    (h : statement s = .ok o t) : Adds 1 s t := by
  obtain ⟨hok, herr⟩ := keptInside_adds.statementOver_of_ne_brace (s.cursor.left + 1)
    (statementWithin s.cursor.left) hs
  rw [statement_run, statementWithin, recovering_run] at h
  split at h
  · rename_i a u hu
    cases h
    exact (hok a _ hu).mono (by decide)
  · rename_i m u hu
    cases h
    exact (herr _ u hu).resumed
  · cases h

/-- The errors in the statement behind `m` others. -/
def errorsIn (m : Nat) (s : State) : List Mismatch :=
  (behind (m + 1) s).mismatches.drop (errorsBehind m s)

/-- The statement behind `m` others may have many errors in it: it is a block, or an assignment in it
is rejected. -/
def Repeats (m : Nat) (s : State) : Prop :=
  (behind m s).cursor.kind = .leftBrace ∨ ∃ e ∈ errorsIn m s, e.rule = .assignment

theorem Steps.errorsBehind_succ_le {s t : State} {p : Program} {m : Nat} (h : Steps s p t)
    (hm : m < p.length) (hr : ¬ Repeats m s) :
    errorsBehind (m + 1) s ≤ errorsBehind m s + 1 := by
  simp only [Repeats, not_or, not_exists, not_and] at hr
  exact (statement_adds hr.1 (h.entry hm).2).length_le hr.2

/-! ### Errors in front of the last entry -/

section Bound

variable {s : State} {n : Nat}

/-- **In front of the last entry** the budget is not spent. -/
theorem exists_program (hn : 0 < n) (hs : s.mismatches = []) (hd : s.depth ≤ 0)
    (hh : s.hook.interrupts = []) :
    ∃ p t, program n s = .ok p t ∧ t.mismatches = (behind p.length s.begun).mismatches ∧
      Steps s.begun p (behind p.length s.begun) ∧ ∀ m < p.length, errorsBehind m s.begun < n := by
  obtain ⟨p, u, hsteps, hend, -⟩ := exists_steps hd hh
  by_cases hlt : u.mismatches.length < n
  · have hlast := hsteps.behind_length
    refine ⟨p, _, program_of_steps hsteps hend ((budgetSpent_eq_false_iff hn).2 hlt) hd, ?_, ?_,
      fun m hm => Nat.lt_of_le_of_lt (hsteps.errorsBehind_le (Nat.le_of_lt hm)) hlt⟩
    · rw [State.mismatches_finished, hlast]
    · rwa [hlast]
  · obtain ⟨m, hm, hspent⟩ := hsteps.exists_spentBehind (Nat.le_of_not_lt hlt)
    have hlen := List.length_take_of_le hm
    refine ⟨_, _, program_of_spentBehind hsteps hm hspent hn hs hd, ?_, ?_, ?_⟩
    · rw [State.mismatches_finished, State.mismatches_stopped, hlen]
    · rw [hlen]
      exact (hsteps.behind hm).1
    · rw [hlen]
      exact hspent.2

/-- Only the last entry takes the errors over the budget, and only if it may have many. -/
theorem Steps.errorsBehind_le_budget {t : State} {p : Program} (h : Steps s p t)
    (hs : s.mismatches = []) (hfront : ∀ m < p.length, errorsBehind m s < n) :
    errorsBehind p.length s ≤ n ∨ ∃ m, p.length = m + 1 ∧ Repeats m s := by
  cases hp : p.length with
  | zero =>
    have hzero : errorsBehind 0 s = 0 := congrArg List.length hs
    exact .inl (by omega)
  | succ m =>
    have hm : m < p.length := by omega
    by_cases hr : Repeats m s
    · exact .inr ⟨m, rfl, hr⟩
    · exact .inl (Nat.le_trans (h.errorsBehind_succ_le hm hr) (hfront m hm))

end Bound

theorem ofText_of_program {options : Options} {hook : Hook} {text : String} {tokens : List Token}
    {s t : State} {p : Program} (hscan : Token.scan text.toList = .ok tokens)
    (hs : start? tokens hook = some s) (hp : program options.maxErrors s = .ok p t) :
    ∃ o, ofText options hook text = .ok o ∧ o.result.collector.errors =
      t.mismatches.map (Mismatch.diagnostic options.file (Text.lines text)) := by
  rw [ofText, hscan]
  simp only [ofTokens, hs, hp]
  exact ⟨_, rfl, rfl⟩

/-- **The budget bounds the errors in front of the last entry**, and all of them unless the last entry
is a block or has a rejected assignment in it. -/
theorem budget_bounds_the_errors {options : Options} {text : String} {tokens : List Token}
    (hscan : Token.scan text.toList = .ok tokens) (hn : 0 < options.maxErrors) :
    ∃ s p t o, start? tokens {} = some s ∧ program options.maxErrors s = .ok p t ∧
      ofText options {} text = .ok o ∧ Steps s.begun p (behind p.length s.begun) ∧
      o.result.collector.errors.length = errorsBehind p.length s.begun ∧
      (∀ m < p.length, errorsBehind m s.begun < options.maxErrors) ∧
      (o.result.collector.errors.length ≤ options.maxErrors ∨
        ∃ m, p.length = m + 1 ∧ Repeats m s.begun) := by
  obtain ⟨ts, rfl, -⟩ := Lexical.tokens_of_scan hscan
  obtain ⟨s, hs⟩ := exists_start ts (e := Lexical.endToken text.toList) rfl {}
  obtain ⟨-, hd, hm, hh⟩ := of_start hs
  obtain ⟨p, t, hp, ht, hsteps, hfront⟩ := exists_program hn hm (Int.le_of_eq hd) hh
  obtain ⟨o, ho, herr⟩ := ofText_of_program hscan hs hp
  have hcount : o.result.collector.errors.length = errorsBehind p.length s.begun := by
    rw [herr, List.length_map, ht, errorsBehind]
  have hbound := hsteps.errorsBehind_le_budget hm hfront
  rw [← hcount] at hbound
  exact ⟨s, p, t, o, hs, hp, ho, hsteps, hcount, hfront, hbound⟩

/-- One error is left of the budget in front of a block with two errors in it. -/
theorem bounded_in_front_of_a_block :
    let options : Options := { maxErrors := 2 }
    let text := ")\n\x7b\n)\n)\n\x7d"
    let tokens : List Token :=
      [⟨.rightParen, ")", .nil, 1, 1⟩, ⟨.endOfLine, "\n", .nil, 1, 2⟩, ⟨.leftBrace, "\x7b", .nil, 2, 1⟩,
        ⟨.endOfLine, "\n", .nil, 2, 2⟩, ⟨.rightParen, ")", .nil, 3, 1⟩,
        ⟨.endOfLine, "\n", .nil, 3, 2⟩, ⟨.rightParen, ")", .nil, 4, 1⟩,
        ⟨.endOfLine, "\n", .nil, 4, 2⟩, ⟨.rightBrace, "\x7d", .nil, 5, 1⟩,
        ⟨.endOfInput, "", .nil, 5, 2⟩]
    Token.scan text.toList = .ok tokens ∧ 0 < options.maxErrors ∧
      ∃ s p t o, start? tokens {} = some s ∧ program options.maxErrors s = .ok p t ∧
        ofText options {} text = .ok o ∧ Steps s.begun p (behind p.length s.begun) ∧
        o.result.collector.errors.length = errorsBehind p.length s.begun ∧
        (∀ m < p.length, errorsBehind m s.begun < 2) ∧
        ∃ m, p.length = m + 1 ∧ Repeats m s.begun := by
  intro options text tokens
  have hscan : Token.scan text.toList = .ok tokens := by decide +kernel
  have hbudget : 0 < options.maxErrors := by decide
  obtain ⟨s, p, t, o, hs, hp, ho, hsteps, hcount, hfront, hbound⟩ :=
    budget_bounds_the_errors hscan hbudget
  refine ⟨hscan, hbudget, s, p, t, o, hs, hp, ho, hsteps, hcount, hfront, ?_⟩
  -- there are three errors
  have hthree : (ofText options {} text).toOption.map (·.result.collector.errors.length) =
      some 3 := by decide +kernel
  rw [ho] at hthree
  have hlen : o.result.collector.errors.length = 3 := Option.some.inj hthree
  refine hbound.resolve_left ?_
  rw [hlen]
  decide

/-- **A block exceeds the budget**: it is read to its end, with two errors in it, though the first one
spends the budget. -/
theorem a_block_exceeds_the_budget :
    let options : Options := { maxErrors := 1 }
    let text := "\x7b\n)\n)\n\x7d"
    (∃ tokens, Token.scan text.toList = .ok tokens) ∧
      ∃ o, ofText options {} text = .ok o ∧ ¬ o.result.collector.errors.length ≤ 1 := by
  intro options text
  have hscan : Token.scan text.toList = .ok
      [⟨.leftBrace, "\x7b", .nil, 1, 1⟩, ⟨.endOfLine, "\n", .nil, 1, 2⟩,
        ⟨.rightParen, ")", .nil, 2, 1⟩, ⟨.endOfLine, "\n", .nil, 2, 2⟩,
        ⟨.rightParen, ")", .nil, 3, 1⟩, ⟨.endOfLine, "\n", .nil, 3, 2⟩,
        ⟨.rightBrace, "\x7d", .nil, 4, 1⟩, ⟨.endOfInput, "", .nil, 4, 2⟩] := by decide +kernel
  have htwo : (ofText options {} text).toOption.map (·.result.collector.errors.length) = some 2 := by
    decide +kernel
  refine ⟨⟨_, hscan⟩, ?_⟩
  cases hrun : ofText options {} text with
  | error f =>
    rw [hrun] at htwo
    cases htwo
  | ok o =>
    rw [hrun] at htwo
    have hlen : o.result.collector.errors.length = 2 := Option.some.inj htwo
    exact ⟨o, rfl, by omega⟩

end LoxFront.Parse
