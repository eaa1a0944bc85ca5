import LoxFront.Proofs.Parse.Balance

/-!
# The hook is told of every error once

There are two places where an error is recorded: one leaves the work behind it, and the other, for a
rejected assignment, goes on.  At both of them the hook is told at once, so the calls of the hook and
the errors stay in step, whatever a parser is asked for and in whatever order (`Operation`).

A call that the hook does not interrupt only adds to both (`Tells`).  One that it interrupts has
told it of an error last of all, and is left at once (`Interrupted`): nobody takes the interruption
for an error and moves on behind it.
-/

namespace LoxFront.Parse

/-! ### Operations -/

/-- What a parser may be asked for, and the depth, which may be set from outside. -/
inductive Operation where
  | program
  | statement
  | expression
  | passTerminator
  | requireTerminator (message : String)
  | resume
  | expect (kind : Kind) (message : String)
  | take (kinds : List Kind)
  | advance
  | setDepth (depth : Int)
deriving DecidableEq, Repr

namespace Operation

/-- What an operation does, apart from its value. -/
def step (budget : Nat) : Operation → Action Unit
  | program => do let _ ← Parse.program budget
  | statement => do let _ ← Parse.statement
  | expression => do let _ ← Parse.expression
  | passTerminator => do let _ ← Parse.passTerminator
  | requireTerminator message => Parse.requireTerminator message
  | resume => Parse.resume
  | expect kind message => do let _ ← Parse.expect kind message
  | take kinds => do let _ ← takeIf kinds.contains
  | advance => do let _ ← Parse.advance
  | setDepth depth => modify fun s => { s with depth := depth }

/-- The state behind operations.  Each begins where the one in front ended, however it did. -/
def after (budget : Nat) (operations : List Operation) (s : State) : State :=
  operations.foldl (fun s o => final (o.step budget s)) s

end Operation

/-! ### What one operation adds -/

/-- The errors so far are those that the hook has been told of, in the same order. -/
def Told (s : State) : Prop := s.reports = s.mismatches.map .ofMismatch

/-- Errors are recorded, the hook is told of each, and it does not interrupt. -/
structure Tells (s t : State) : Prop where
  added : ∃ l, t.mismatches = s.mismatches ++ l ∧ t.reports = s.reports ++ l.map .ofMismatch
  events : s.events <+: t.events
  hook : t.hook = s.hook
  calm : ∀ k ∈ s.hook.interrupts, s.reports.length < k → t.reports.length < k

/-- The hook interrupts the work when it is told of an error. -/
def Interrupted (s t : State) : Prop :=
  ∃ u m, Tells s u ∧ u.hookStops = true ∧ t = u.reported m

/-- The hook is told of each error, and interrupts the work just when it leaves early for that. -/
def TellsUntil (s : State) (e : Exit) (t : State) : Prop :=
  if e = .interrupted then Interrupted s t else Tells s t

variable {s t u : State}

theorem hookStops_iff : s.hookStops = true ↔ s.reports.length + 1 ∈ s.hook.interrupts := by
  simp [State.hookStops]

namespace Tells

theorem refl (s : State) : Tells s s :=
  ⟨⟨[], by simp, by simp⟩, List.prefix_rfl, rfl, fun _ _ h => h⟩

theorem trans (h : Tells s t) (h' : Tells t u) : Tells s u := by
  obtain ⟨l, hm, hr⟩ := h.added
  obtain ⟨l', hm', hr'⟩ := h'.added
  refine ⟨⟨l ++ l', ?_, ?_⟩, h.events.trans h'.events, h'.hook.trans h.hook, fun k hk hlt => ?_⟩
  · rw [hm', hm, List.append_assoc]
  · rw [hr', hr, List.map_append, List.append_assoc]
  · exact h'.calm k (h.hook ▸ hk) (h.calm k hk hlt)

theorem reported (m : Mismatch) (hs : s.hookStops = false) : Tells s (s.reported m) := by
  refine ⟨⟨[m], State.mismatches_reported m s, rfl⟩, List.prefix_append _ _, rfl, fun k hk hlt => ?_⟩
  have hlen : (s.reported m).reports.length = s.reports.length + 1 := List.length_append
  have hne : k ≠ s.reports.length + 1 := by
    rintro rfl
    rw [hookStops_iff.2 hk] at hs
    cases hs
  omega

/-- Where no error is recorded and the hook is not told, there is nothing to tell. -/
theorem of_eq (hm : t.mismatches = s.mismatches) (hr : t.reports = s.reports)
    (he : s.events <+: t.events) (hh : t.hook = s.hook) : Tells s t :=
  ⟨⟨[], by simp [hm], by simp [hr]⟩, he, hh, fun _ _ hlt => hr ▸ hlt⟩

theorem next (s : State) : Tells s s.next := of_eq rfl rfl List.prefix_rfl rfl

theorem resumed (s : State) : Tells s s.resumed :=
  of_eq (State.mismatches_resumed s) rfl (List.prefix_append _ _) rfl

/-- The depth does not matter. -/
theorem congr {s' t' : State} (h : Tells s t) (hs : s' = { s with depth := s'.depth })
    (ht : t' = { t with depth := t'.depth }) : Tells s' t' := by
  rw [hs, ht]
  exact ⟨h.added, h.events, h.hook, h.calm⟩

theorem told (h : Tells s t) (hs : Told s) : Told t := by
  obtain ⟨l, hm, hr⟩ := h.added
  rw [Told, hr, hm, List.map_append, hs]

end Tells

/-- An error is recorded at last, whether or not the hook interrupts the work then. -/
theorem TellsUntil.reported (m : Mismatch) (s : State) :
    TellsUntil s (if s.hookStops then .interrupted else .mismatch m) (s.reported m) := by
  cases hs : s.hookStops
  · exact Tells.reported m hs
  · exact ⟨s, m, .refl s, hs, rfl⟩

theorem TellsUntil.after {e : Exit} (h : Tells s t) (h' : TellsUntil t e u) : TellsUntil s e u := by
  unfold TellsUntil at h' ⊢
  split_ifs at h' ⊢
  · obtain ⟨v, m, hv, hm⟩ := h'
    exact ⟨v, m, h.trans hv, hm⟩
  · exact h.trans h'

/-- **What every program does to the errors and the hook.** -/
theorem keptThroughout_tells : KeptThroughout Tells TellsUntil where
  refl := .refl
  trans := .trans
  next s _ := .next s
  rejected {s _} _ h hs := ((Tells.next s).trans h).trans (.reported _ hs)
  after := .after
  failed _ _ s _ := .reported _ s
  stopped {s _} _ h hs := ⟨_, _, (Tells.next s).trans h, hs, rfl⟩
  endless := .refl
  recover h := .trans h (.resumed _)
  block h := h.congr rfl rfl
  blockExit {s t e} h := by
    unfold TellsUntil at h ⊢
    split_ifs at h ⊢
    · obtain ⟨u, m, hu, hs, rfl⟩ := h
      exact ⟨u.closed, m, hu.congr rfl rfl, hs, rfl⟩
    · exact h.congr rfl rfl
  spent s := .of_eq (State.mismatches_stopped s) rfl (List.prefix_append _ _) rfl
  finished n k s := .of_eq (State.mismatches_finished n k s) rfl (List.prefix_append _ _) rfl

/-! ### Any number of operations -/

/-- An operation keeps what programs and recovery keep, if it does not set the depth. -/
theorem Operation.step_keeps {R : State → State → Prop} {E : State → Exit → State → Prop}
    (h : KeptThroughout R E) (hresume : ∀ s, R s s.resumed) (budget : Nat) (o : Operation)
    (hdepth : ∀ depth, o = .setDepth depth → ∀ s, R s { s with depth := depth }) :
    Keeps R E (o.step budget) := by
  have hvalue : ∀ {α : Type} {x : Action α}, Keeps R E x → Keeps R E (do let _ ← x) :=
    fun hx => h.bind hx fun _ => h.pure ()
  cases o with
  | program => exact hvalue (h.program budget)
  | statement => exact hvalue h.statement
  | expression => exact hvalue fun s => h.expressionWithin _ s
  | passTerminator =>
    refine hvalue fun s => ?_
    rw [passTerminator_run]
    cases hc : s.cursor.passTerminator? s.depth with
    | none => exact h.refl s
    | some c => exact h.moveTo s (.passTerminator hc)
  | requireTerminator message => exact h.requireTerminator message
  | resume => exact hresume
  | expect kind message => exact hvalue (h.expect kind message)
  | take kinds => exact hvalue (h.takeIf _)
  | advance => exact hvalue fun s => h.moveTo s (.advance _)
  | setDepth depth => exact hdepth depth rfl

/-- **Every operation tells the hook of its errors.** -/
theorem Operation.step_tells (budget : Nat) (o : Operation) : Keeps Tells TellsUntil (o.step budget) :=
  step_keeps keptThroughout_tells .resumed budget o fun _ _ _ => .of_eq rfl rfl List.prefix_rfl rfl

/-- What comes before the end of an operation, and whether the hook interrupts it there. -/
theorem Operation.step_cases (budget : Nat) (o : Operation) (s : State) :
    let r := o.step budget s
    Tells s (final r) ∧ r ≠ .error .interrupted (final r) ∨
      Interrupted s (final r) ∧ r = .error .interrupted (final r) := by
  have h := o.step_tells budget s
  cases hr : o.step budget s with
  | ok a t =>
    rw [hr] at h
    exact .inl ⟨h, fun h => by cases h⟩
  | error e t =>
    rw [hr] at h
    by_cases he : e = .interrupted
    · subst he
      exact .inr ⟨h, rfl⟩
    · refine .inl ⟨(if_neg he).mp h, fun h => ?_⟩
      cases h
      exact he rfl

namespace Interrupted

theorem told (h : Interrupted s t) (hs : Told s) : Told t := by
  obtain ⟨u, m, hu, -, rfl⟩ := h
  rw [Told, State.mismatches_reported, List.map_append, ← hu.told hs]
  rfl

theorem mismatches (h : Interrupted s t) : s.mismatches <+: t.mismatches := by
  obtain ⟨u, m, hu, -, rfl⟩ := h
  obtain ⟨l, hl, -⟩ := hu.added
  exact ⟨l ++ [m], by rw [State.mismatches_reported, hl, List.append_assoc]⟩

theorem hook (h : Interrupted s t) : t.hook = s.hook := by
  obtain ⟨u, m, hu, -, rfl⟩ := h
  exact hu.hook

/-- The last call of the hook is the only one that it interrupts. -/
theorem last_call (h : Interrupted s t) :
    t.reports.length ∈ s.hook.interrupts ∧ s.reports.length < t.reports.length ∧
      ∀ k ∈ s.hook.interrupts, s.reports.length < k → t.reports.length ≤ k := by
  obtain ⟨u, m, hu, hstop, rfl⟩ := h
  obtain ⟨l, -, hr⟩ := hu.added
  have hlen : (u.reported m).reports.length = u.reports.length + 1 := List.length_append
  have hle : s.reports.length ≤ u.reports.length := by
    rw [hr, List.length_append]
    omega
  rw [hookStops_iff, hu.hook] at hstop
  rw [hlen]
  exact ⟨hstop, by omega, fun k hk hlt => hu.calm k hk hlt⟩

/-- Nothing happens behind the error that the hook is told of last. -/
theorem last_event (h : Interrupted s t) : ∃ l m, t.events = s.events ++ l ++ [.reported m] := by
  obtain ⟨u, m, hu, -, rfl⟩ := h
  obtain ⟨l, hl⟩ := hu.events
  exact ⟨l, m, by rw [hl]; rfl⟩

end Interrupted

theorem Operation.after_told (budget : Nat) (operations : List Operation) (hs : Told s) :
    Told (after budget operations s) ∧ (after budget operations s).hook = s.hook := by
  induction operations generalizing s with
  | nil => exact ⟨hs, rfl⟩
  | cons o operations ih =>
    have hstep : Told (final (o.step budget s)) ∧ (final (o.step budget s)).hook = s.hook := by
      rcases o.step_cases budget s with ⟨h, -⟩ | ⟨h, -⟩
      · exact ⟨h.told hs, h.hook⟩
      · exact ⟨h.told hs, h.hook⟩
    exact ⟨(ih hstep.1).1, (ih hstep.1).2.trans hstep.2⟩

/-- **The hook is told of every error once**, whatever operations a parser is asked for.  Before and
behind each of them the calls of the hook are the errors so far, in their order, and no error is lost
or changed.  An operation is interrupted just when one of the calls of the hook in it is, and that is
the last one: nothing happens behind the error that it is about. -/
theorem every_error_is_told_once {tokens : List Token} {hook : Hook} {start : State}
    (hstart : start? tokens hook = some start) (budget : Nat) (operations : List Operation)
    (o : Operation) :
    let s := Operation.after budget operations start
    let r := o.step budget s
    let t := final r
    Told s ∧ Told t ∧ s.mismatches <+: t.mismatches ∧
      (r = .error .interrupted t ↔
        ∃ k ∈ hook.interrupts, s.reports.length < k ∧ k ≤ t.reports.length) ∧
      (r = .error .interrupted t →
        t.reports.length ∈ hook.interrupts ∧
        (∀ k ∈ hook.interrupts, s.reports.length < k → t.reports.length ≤ k) ∧
        ∃ l m, t.events = s.events ++ l ++ [.reported m]) := by
  intro s r t
  obtain ⟨-, -, -, hevents, hreports, hhook⟩ := start?_eq_some.1 hstart
  have hfirst : Told start := by
    rw [Told, hreports, State.mismatches, hevents]
    rfl
  obtain ⟨hs, hh⟩ := Operation.after_told budget operations hfirst
  have hinterrupts : s.hook.interrupts = hook.interrupts := by rw [hh, hhook]
  rcases o.step_cases budget s with ⟨h, hne⟩ | ⟨h, heq⟩
  · obtain ⟨l, hm, -⟩ := h.added
    refine ⟨hs, h.told hs, ⟨l, hm.symm⟩, ⟨fun h => absurd h hne, ?_⟩, fun h => absurd h hne⟩
    rintro ⟨k, hk, hlt, hle⟩
    have hcalm := h.calm k (hinterrupts ▸ hk) hlt
    exact absurd hle (Nat.not_le_of_lt hcalm)
  · obtain ⟨hlast, hlt, hfirst⟩ := h.last_call
    rw [hinterrupts] at hlast hfirst
    exact ⟨hs, h.told hs, h.mismatches, ⟨fun _ => ⟨_, hlast, hlt, Nat.le_refl _⟩, fun _ => heq⟩,
      fun _ => ⟨hlast, hfirst, h.last_event⟩⟩

/-- The hook interrupts the work at a rejected assignment inside of a block, behind an error of an
operation in front. -/
theorem told_of_a_rejected_assignment :
    let paren : Token := ⟨.rightParen, ")", .nil, 1, 1⟩
    let l : Token := ⟨.leftBrace, "\x7b", .nil, 1, 2⟩
    let one : Token := ⟨.number, "1", .nil, 1, 3⟩
    let equals : Token := ⟨.equal, "=", .nil, 1, 4⟩
    let x : Token := ⟨.identifier, "x", .nil, 1, 5⟩
    let r : Token := ⟨.rightBrace, "\x7d", .nil, 1, 6⟩
    let stop : Token := ⟨.endOfInput, "", .nil, 1, 7⟩
    let expected : String := "Expect expression."
    ∃ start s t, start? [paren, l, one, equals, x, r, stop] ⟨[2]⟩ = some start ∧
      Operation.after 0 [.setDepth 1, .expression, .advance] start = s ∧
      s.reports = [⟨1, paren, expected⟩] ∧
      Operation.program.step 0 s = .error .interrupted t ∧
      t.mismatches = [⟨.expression, expected, paren⟩, .invalidAssignment equals] ∧ Told t ∧
      ∃ es m, t.events = s.events ++ es ++ [.reported m] := by
  intro paren l one equals x r stop expected
  let start : State :=
    { cursor := ⟨[], paren, [l, one, equals, x, r, stop], rfl⟩, hook := ⟨[2]⟩ }
  let s := Operation.after 0 [.setDepth 1, .expression, .advance] start
  have hstart : start? [paren, l, one, equals, x, r, stop] ⟨[2]⟩ = some start := rfl
  have hfirst : s.reports = [⟨1, paren, expected⟩] := by decide +kernel
  have hboth : (final (Operation.program.step 0 s)).mismatches =
      [⟨.expression, expected, paren⟩, .invalidAssignment equals] := by decide +kernel
  obtain ⟨-, htold, -, hiff, hlast⟩ := every_error_is_told_once hstart 0
    [.setDepth 1, .expression, .advance] .program
  -- the second call of the hook is in this operation
  have hcount : (final (Operation.program.step 0 s)).reports.length = 2 := by
    rw [htold, hboth]
    rfl
  have hstop := hiff.2 ⟨2, List.mem_singleton_self 2, by rw [hfirst]; decide, Nat.le_of_eq hcount.symm⟩
  exact ⟨start, s, _, hstart, rfl, hfirst, hstop, hboth, htold, (hlast hstop).2.2⟩

end LoxFront.Parse
