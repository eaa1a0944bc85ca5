import LoxFront.Proofs.Parse.Lookahead

/-!
# Parsing by kinds

Every choice of the parser is made by the kind of the token under the cursor, and only literals put
the value of a token into a tree.  So a stream whose tokens have other spellings and stand at other
places (`Relabelling`) is parsed to the same trees, with the new tokens in the place of the old ones,
and the same errors are recorded at the new tokens (`program_parallel`).

The moves of a cursor and the changes of a state commute with a relabelling.  So two runs, one of them
over the new tokens, are near to each other as long as the states of the second are those of the first
with new tokens; nothing leads them apart (`relabelled`), and what holds of a statement holds of the
entries of a program by induction on its fuel.
-/

namespace LoxFront

/-- A change of tokens that keeps their kinds and values.  Spellings, lines and columns may change. -/
structure Relabelling where
  onToken : Token → Token
  kind_onToken (t : Token) : (onToken t).kind = t.kind
  literal_onToken (t : Token) : (onToken t).literal = t.literal

namespace Relabelling

instance : CoeFun Relabelling fun _ => Token → Token := ⟨onToken⟩

variable (f : Relabelling)

theorem ends_iff (t : Token) (rest : List Token) : Ends (f t) (rest.map f) ↔ Ends t rest := by
  induction rest generalizing t with
  | nil => rw [List.map_nil, Ends, Ends, f.kind_onToken]
  | cons u rest ih => exact ih u

end Relabelling

variable (f : Relabelling)

/-- A mismatch at the new token. -/
def Mismatch.map (m : Mismatch) : Mismatch := ⟨m.rule, m.message, f m.token⟩

/-! ### Cursors -/

namespace Cursor

/-- The same place in the stream of new tokens. -/
def map (c : Cursor) : Cursor :=
  ⟨c.passed.map f, f c.current, c.ahead.map f, (f.ends_iff _ _).2 c.ends⟩

@[simp] theorem kind_map (c : Cursor) : (c.map f).kind = c.kind := f.kind_onToken c.current

@[simp] theorem index_map (c : Cursor) : (c.map f).index = c.index := List.length_map _

@[simp] theorem left_map (c : Cursor) : (c.map f).left = c.left := List.length_map _

theorem advance_map (c : Cursor) : (c.map f).advance = c.advance.map f := by
  by_cases hk : c.kind = .endOfInput
  · rw [advance_of_end hk, advance_of_end (by rwa [kind_map])]
  have hk' : (c.map f).kind ≠ .endOfInput := by rwa [kind_map]
  obtain ⟨hr, hp⟩ := rest_advance hk
  obtain ⟨hr', hp'⟩ := rest_advance hk'
  refine ext_rest (hp'.trans (congrArg (List.map f) hp).symm) ?_
  have hrest : (c.map f).rest = f c.current :: c.advance.rest.map f := congrArg (List.map f) hr
  exact (List.cons.inj (hr'.symm.trans hrest)).2

theorem skipLines_map (c : Cursor) : (c.map f).skipLines = c.skipLines.map f := by
  induction c using advance_induction with
  | h c ih =>
    by_cases hk : c.kind = .endOfLine
    · have hline : (c.map f).kind = .endOfLine := by rwa [kind_map]
      rw [skipLines_of_line hk, skipLines_of_line hline, advance_map]
      exact ih (by rw [hk]; decide)
    · have hne : (c.map f).kind ≠ .endOfLine := by rwa [kind_map]
      rw [skipLines_of_ne hk, skipLines_of_ne hne]

theorem passTerminator?_map (depth : Int) (c : Cursor) :
    (c.map f).passTerminator? depth = (c.passTerminator? depth).map (map f) := by
  have hk : (c.map f).current.kind = c.current.kind := kind_map f c
  rw [passTerminator?, passTerminator?, hk, advance_map, skipLines_map, skipLines_map]
  cases c.current.kind <;> try rfl
  exact (apply_ite (Option.map (map f)) (0 < depth) (some c) none).symm

theorem seek_map (depth : Int) (c : Cursor) : (c.map f).seek depth = (c.seek depth).map f := by
  induction c using advance_induction with
  | h c ih =>
    rw [seek_eq depth c, seek_eq depth (c.map f), kind_map, passTerminator?_map, advance_map]
    split_ifs with hk
    · rfl
    cases c.passTerminator? depth with
    | some d => rfl
    | none => exact ih fun he => hk (.inl he)

/-- Recovery goes on at the same place. -/
theorem resume_map (depth : Int) (c : Cursor) :
    (c.map f).resume depth = (c.resume depth).map f := by
  rw [resume, resume, passTerminator?_map, advance_map, seek_map]
  cases c.passTerminator? depth <;> rfl

theorem start?_map (tokens : List Token) : start? (tokens.map f) = (start? tokens).map (map f) := by
  cases tokens with
  | nil => rfl
  | cons t rest =>
    by_cases h : Ends t rest
    · have h' := (f.ends_iff t rest).2 h
      simp only [List.map_cons, start?, h, h', ↓reduceDIte, Option.map_some, map, List.map_nil]
    · have h' := mt (f.ends_iff t rest).1 h
      simp only [List.map_cons, start?, h, h', ↓reduceDIte, Option.map_none]

end Cursor

namespace Parse

/-! ### States -/

/-- The same event with the new tokens. -/
def Event.map : Event → Event
  | reported m => reported (m.map f)
  | resumed t => resumed (f t)
  | stopped errors t => stopped errors (f t)
  | finished entries errors => finished entries errors

/-- The same call of the hook with the new token. -/
def Report.map (r : Report) : Report := ⟨(f r.token).line, f r.token, r.message⟩

namespace State

/-- The same state over the stream of new tokens. -/
def map (s : State) : State where
  cursor := s.cursor.map f
  depth := s.depth
  events := s.events.map (Event.map f)
  reports := s.reports.map (Report.map f)
  hook := s.hook

variable (s : State)

/-- The same errors are recorded, at the new tokens. -/
theorem mismatches_map : (s.map f).mismatches = s.mismatches.map (Mismatch.map f) := by
  rw [mismatches, mismatches, List.map_filterMap]
  refine List.filterMap_map.trans (congrArg (List.filterMap · s.events) (funext fun e => ?_))
  cases e <;> rfl

/-- The same warnings are given, at the new tokens. -/
theorem warnings_map : (s.map f).warnings = s.warnings.map fun w => (w.1, f w.2) := by
  rw [warnings, warnings, List.map_filterMap]
  refine List.filterMap_map.trans (congrArg (List.filterMap · s.events) (funext fun e => ?_))
  cases e <;> rfl

@[simp] theorem hookStops_map : (s.map f).hookStops = s.hookStops := by
  rw [hookStops, hookStops, map, List.length_map]

theorem note_map (e : Event) : (s.map f).note (e.map f) = (s.note e).map f := by
  simp only [note, map, List.map_append, List.map_cons, List.map_nil]

theorem next_map : (s.map f).next = s.next.map f := by
  rw [next, next]
  exact congrArg ((s.map f).moveTo ·) (s.cursor.advance_map f)

theorem begun_map : (s.map f).begun = s.begun.map f :=
  congrArg ((s.map f).moveTo ·) (s.cursor.skipLines_map f)

theorem reported_map (m : Mismatch) : (s.map f).reported (m.map f) = (s.reported m).map f := by
  simp only [reported, note, map, List.map_append, List.map_cons, List.map_nil]
  rfl

theorem resumed_map : (s.map f).resumed = s.resumed.map f := by
  have hc : (s.map f).cursor.resume (s.map f).depth = (s.cursor.resume s.depth).map f :=
    s.cursor.resume_map f s.depth
  rw [resumed, resumed, hc, ← note_map]
  rfl

theorem stopped_map : (s.map f).stopped = s.stopped.map f := by
  rw [stopped, stopped, ← note_map, mismatches_map, List.length_map]
  rfl

theorem rounds_map (budget : Nat) : (s.map f).rounds budget = s.rounds budget := by
  rw [rounds, rounds, map, Cursor.left_map]

end State

theorem start?_map (tokens : List Token) (hook : Hook) :
    start? (tokens.map f) hook = (start? tokens hook).map (State.map f) := by
  rw [start?, start?, Cursor.start?_map]
  cases Cursor.start? tokens <;> rfl

/-! ### Side by side -/

/-- Two runs, the second over the stream of new tokens. -/
def relabelled : StatementSimulation where
  relabel := f
  Near s t := t = s.map f
  Apart := Simulation.Never
  Lost := Simulation.Nowhere
  kind_relabel := f.kind_onToken
  literal_relabel := f.literal_onToken
  hooks h := by rw [h, State.hookStops_map]
  same h _ := by rw [h]; rfl
  next {s _} h _ := .inl (by rw [h, s.next_map f])
  failed {s _} rule message h := by rw [h]; exact s.reported_map f ⟨rule, message, s.cursor.current⟩
  rejected {s _ equals} h _ := by rw [h]; exact s.reported_map f (.invalidAssignment equals)
  lost := never_lost
  ended {s _} h := by
    have hc : (s.map f).cursor.passTerminator? (s.map f).depth =
        (s.cursor.passTerminator? s.depth).map (Cursor.map f) :=
      s.cursor.passTerminator?_map f s.depth
    rw [h, hc]
    cases s.cursor.passTerminator? s.depth with
    | none => exact .inl ⟨rfl, rfl⟩
    | some c => exact .inr ⟨c, c.map f, rfl, rfl, .inl rfl⟩
  resumed {s _} h := .inl (by rw [h, s.resumed_map f])
  brace {s _} h := by rw [h]; exact iff_of_eq (congrArg (· = _) (s.cursor.kind_map f).symm)
  stop {s _} h := by rw [h]; exact iff_of_eq (congrArg (· = _) (s.cursor.kind_map f).symm)
  passed {s _} h _ := .inl (by rw [h, s.next_map f])
  entered {s _} h _ := .inl (by rw [h, s.next_map f]; exact s.next.opened.begun_map f)
  closed h := by rw [h]; rfl
  closed_apart := @Simulation.Never.closed
  closed_lost h := h
  atEnd := @Simulation.Never.atEnd
  unclosed h := h.elim

/-! ### Statements and programs -/

/-- A step over the new tokens does what it does over the old ones: it gives the same value up to a
change `g` of tokens, or is interrupted too. -/
inductive Parallel {α : Type} (g : α → α) :
    EStateM.Result Exit State α → EStateM.Result Exit State α → Prop
  | ok (a : α) (t : State) : Parallel g (.ok a t) (.ok (g a) (t.map f))
  | interrupted (t : State) : Parallel g (.error .interrupted t) (.error .interrupted (t.map f))

/-- A statement over the new tokens. -/
theorem statement_parallel (s : State) :
    Parallel f (Option.map (Stmt.map f)) (statement s) (statement (s.map f)) := by
  have h := (relabelled f).statement s (s.map f) rfl
  have hend := statement_ne_endless s
  have hleave := fun e t => statement_error (s := s) (t := t) (e := e)
  generalize statement s = r at h hend hleave
  generalize statement (s.map f) = r' at h
  cases h with
  | ok hn =>
    obtain rfl := hn
    exact .ok _ _
  | error hs hn =>
    obtain rfl := hn
    obtain rfl := hleave _ _ rfl
    cases hs
    exact .interrupted _
  | apart ha => exact ha.elim
  | vain hv =>
    rcases hv with ⟨u, rfl⟩ | hl
    · exact absurd rfl (hend u)
    · exact hl.elim

/-- The entries of a program over the new tokens. -/
theorem entries_parallel (budget : Nat) {fuel : Nat} {s : State} (hd : s.depth ≤ 0)
    (hf : s.cursor.left < fuel) :
    Parallel f (Program.map f) (entries budget fuel s) (entries budget fuel (s.map f)) := by
  induction fuel generalizing s with
  | zero => omega
  | succ fuel ih =>
    rw [entries_run, entries_run, show (s.map f).cursor.kind = _ from s.cursor.kind_map f]
    split_ifs with hk
    · exact .ok [] s
    have h := statement_parallel f s
    have hgone : ∀ o t, statement s = .ok o t →
        t.depth = s.depth ∧ t.cursor.left < s.cursor.left := fun o t ho =>
      ⟨(kept_follows.statement.ok ho).depth, statementWithin_left_lt ho (not_stuck hd hk)⟩
    generalize statement s = r at h hgone
    generalize statement (s.map f) = r' at h
    cases h with
    | interrupted t => exact .interrupted t
    | ok o t =>
      dsimp only
      rw [t.mismatches_map f, List.length_map, t.stopped_map f]
      split_ifs with hb
      · exact .ok [o] t.stopped
      obtain ⟨hdt, hlt⟩ := hgone o t rfl
      have hrest := ih (s := t) (by omega) (by omega)
      generalize hr : entries budget fuel t = r at hrest
      generalize hr' : entries budget fuel (t.map f) = r' at hrest
      cases hrest with
      | ok p u =>
        rw [bind_of_ok hr, bind_of_ok hr']
        exact .ok (o :: p) u
      | interrupted u =>
        rw [bind_of_error hr, bind_of_error hr']
        exact .interrupted u

/-- A program over the new tokens. -/
theorem program_parallel (budget : Nat) {s : State} (hd : s.depth ≤ 0) :
    Parallel f (Program.map f) (program budget s) (program budget (s.map f)) := by
  have h := entries_parallel f budget (s := s.begun) hd (lt_rounds budget s.begun)
  rw [program_run, program_run, s.begun_map f, s.begun.rounds_map f]
  generalize entries budget (s.begun.rounds budget) s.begun = r at h
  generalize entries budget (s.begun.rounds budget) (s.begun.map f) = r' at h
  cases h with
  | interrupted t => exact .interrupted t
  | ok p t =>
    dsimp only
    rw [t.mismatches_map f, List.length_map, Program.map, List.length_map]
    rw [← Event.map, t.note_map f (.finished p.length t.mismatches.length)]
    exact .ok p _

/-- **Parsing is blind to spellings and places.**  New tokens of the same kinds and values make up a
stream just when the old ones do.  A hook that never interrupts lets every parse end; one that does
interrupts both parses at the same place.  A parse that ends gives the same trees with the new tokens
in them, with placeholders in the same places; it records the same errors and warnings at the new
tokens, and comes to the same place at the same depth. -/
theorem parsing_is_blind_to_spelling (f : Relabelling) (tokens : List Token) (hook : Hook)
    (budget : Nat) :
    start? (tokens.map f) hook = (start? tokens hook).map (State.map f) ∧
    ∀ s, start? tokens hook = some s →
      (hook.interrupts = [] → ∃ p t, program budget s = .ok p t) ∧
      (∀ e t, program budget s = .error e t →
        e = .interrupted ∧ program budget (s.map f) = .error .interrupted (t.map f)) ∧
      ∀ p t, program budget s = .ok p t →
        program budget (s.map f) = .ok (p.map f) (t.map f) ∧
        (t.map f).mismatches = t.mismatches.map (fun m => ⟨m.rule, m.message, f m.token⟩) ∧
        (t.map f).warnings = t.warnings.map (fun w => (w.1, f w.2)) ∧
        (t.map f).cursor.index = t.cursor.index ∧ (t.map f).depth = t.depth := by
  refine ⟨start?_map f tokens hook, fun s hs => ?_⟩
  obtain ⟨-, -, hd, -, -, hhook⟩ := start?_eq_some.1 hs
  have hparallel := program_parallel f budget (Int.le_of_eq hd)
  refine ⟨fun hh => ?_, fun e t he => ?_, fun p t hp => ?_⟩
  · obtain ⟨p, t, hp, -⟩ := program_ok budget (hhook ▸ hh) (Int.le_of_eq hd)
    exact ⟨p, t, hp⟩
  · rw [he] at hparallel
    generalize program budget (s.map f) = r' at hparallel
    cases hparallel
    exact ⟨rfl, rfl⟩
  · rw [hp] at hparallel
    generalize program budget (s.map f) = r' at hparallel
    cases hparallel
    exact ⟨rfl, t.mismatches_map f, t.warnings_map f, t.cursor.index_map f, rfl⟩

/-- Without spellings and places a stray parenthesis is dropped in the same way, and the declaration
behind it is kept; the error names the parenthesis without its spelling. -/
theorem blind_to_the_spelling_of_a_stray_parenthesis :
    let f : Relabelling :=
      ⟨fun t => { t with lexeme := "", line := 0, column := 0 }, fun _ => rfl, fun _ => rfl⟩
    let paren : Token := ⟨.rightParen, ")", .nil, 1, 1⟩
    let semicolon : Token := ⟨.semicolon, ";", .nil, 1, 2⟩
    let var : Token := ⟨.keyword .kVar, "var", .nil, 2, 1⟩
    let x : Token := ⟨.identifier, "x", .nil, 2, 5⟩
    let stop : Token := ⟨.endOfInput, "", .nil, 2, 6⟩
    ∃ s t, start? [paren, semicolon, var, x, stop] {} = some s ∧
      program 0 s = .ok [none, some (.declare x none)] t ∧
      program 0 (s.map f) = .ok [none, some (.declare (f x) none)] (t.map f) ∧
      (t.map f).mismatches = [⟨.expression, "Expect expression.", f paren⟩] := by
  intro f paren semicolon var x stop
  obtain ⟨s, t, hs, hp, herrors⟩ : Gives 0 [paren, semicolon, var, x, stop]
      [none, some (.declare x none)] [⟨.expression, "Expect expression.", paren⟩] := by
    decide +kernel
  obtain ⟨-, h⟩ := parsing_is_blind_to_spelling f [paren, semicolon, var, x, stop] {} 0
  obtain ⟨-, -, hgives⟩ := h s hs
  obtain ⟨hnew, hmismatches, -⟩ := hgives _ t hp
  exact ⟨s, t, hs, hp, hnew, hmismatches.trans (congrArg (List.map _) herrors)⟩

end Parse

end LoxFront
