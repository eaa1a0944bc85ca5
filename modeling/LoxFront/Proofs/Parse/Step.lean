import LoxFront.Parse.Program
import LoxFront.Proofs.Grammar
import LoxFront.Proofs.Parse.Cursor

/-!
# What one step can do

The steps of parsing are put together from a few that touch the state: to take a token, to record
an error, to move on after one, and to open and to close a block.  The equations here say what each
of them does to a state; nothing else about steps is unfolded elsewhere.

* `bind_ok`, `bind_of_ok` : a sequence of two steps;
* `takeIf_some`, `expect_run`, `requireTerminator_run` : steps that look at the token under the cursor;
* `statementOver_run`, `blockItems_run`, `entries_run` : which way statements go on.
-/

namespace LoxFront.Parse

variable {α β : Type}

/-! ### Changes of the state -/

namespace State

/-- The state after the token under the cursor is taken. -/
def next (s : State) : State := s.moveTo s.cursor.advance

/-- The state after an error is recorded and the hook is told. -/
def reported (m : Mismatch) (s : State) : State :=
  { s.note (.reported m) with reports := s.reports ++ [.ofMismatch m] }

/-- The state after moving on behind an error. -/
def resumed (s : State) : State :=
  (s.moveTo (s.cursor.resume s.depth)).note (.resumed (s.cursor.resume s.depth).current)

/-- The state inside one more block. -/
def opened (s : State) : State := { s with depth := s.depth + 1 }

/-- The state outside of a block. -/
def closed (s : State) : State := { s with depth := s.depth - 1 }

/-- Whether the hook will interrupt the work when it is told of the next error. -/
def hookStops (s : State) : Bool := s.hook.interrupts.contains (s.reports.length + 1)

/-- The state behind the line ends in front of statements. -/
def begun (s : State) : State := s.moveTo s.cursor.skipLines

/-- The state after the budget is spent. -/
def stopped (s : State) : State := s.note (.stopped s.mismatches.length s.cursor.current)

theorem mismatches_note (e : Event) (s : State) :
    (s.note e).mismatches = s.mismatches ++ e.mismatch?.toList := by
  simp only [mismatches, note, List.filterMap_append, List.filterMap_cons, List.filterMap_nil]
  cases e.mismatch? <;> rfl

@[simp] theorem mismatches_reported (m : Mismatch) (s : State) :
    (s.reported m).mismatches = s.mismatches ++ [m] := mismatches_note (.reported m) s

@[simp] theorem mismatches_resumed (s : State) : s.resumed.mismatches = s.mismatches := by
  rw [resumed, mismatches_note]
  exact List.append_nil _

@[simp] theorem mismatches_stopped (s : State) : s.stopped.mismatches = s.mismatches := by
  rw [stopped, mismatches_note]
  exact List.append_nil _

@[simp] theorem mismatches_finished (n k : Nat) (s : State) :
    (s.note (.finished n k)).mismatches = s.mismatches := by
  rw [mismatches_note]
  exact List.append_nil _

end State

/-! ### Equations -/

theorem pure_run (a : α) (s : State) : (pure a : Action α) s = .ok a s := rfl

theorem modify_run (f : State → State) (s : State) :
    (modify f : Action Unit) s = .ok () (f s) := rfl

theorem get_run (s : State) : (get : Action State) s = .ok s s := rfl

theorem set_run (s t : State) : (set t : Action Unit) s = .ok () t := rfl

theorem bind_run (x : Action α) (f : α → Action β) (s : State) :
    (x >>= f) s = match x s with
      | .ok a t => f a t
      | .error e t => .error e t := by
  simp only [bind, EStateM.bind]
  cases x s <;> rfl

theorem bind_ok {x : Action α} {f : α → Action β} {s u : State} {b : β} :
    (x >>= f) s = .ok b u ↔ ∃ a t, x s = .ok a t ∧ f a t = .ok b u := by
  rw [bind_run]
  constructor
  · intro h
    cases hx : x s with
    | ok a t => exact ⟨a, t, rfl, by simpa [hx] using h⟩
    | error e t => simp [hx] at h
  · rintro ⟨a, t, hx, h⟩
    rw [hx]
    exact h

theorem bind_error {x : Action α} {f : α → Action β} {s u : State} {e : Exit} :
    (x >>= f) s = .error e u ↔
      x s = .error e u ∨ ∃ a t, x s = .ok a t ∧ f a t = .error e u := by
  rw [bind_run]
  constructor
  · intro h
    cases hx : x s with
    | ok a t => exact .inr ⟨a, t, rfl, by simpa [hx] using h⟩
    | error e t => exact .inl (by simpa [hx] using h)
  · rintro (hx | ⟨a, t, hx, h⟩)
    · rw [hx]
    · rw [hx]
      exact h

theorem bind_of_ok {x : Action α} {f : α → Action β} {s t : State} {a : α} (h : x s = .ok a t) :
    (x >>= f) s = f a t := by
  rw [bind_run, h]

theorem bind_of_error {x : Action α} {f : α → Action β} {s t : State} {e : Exit}
    (h : x s = .error e t) : (x >>= f) s = .error e t := by
  rw [bind_run, h]

theorem report_run (m : Mismatch) (s : State) :
    report m s =
      if s.hookStops then .error .interrupted (s.reported m) else .ok () (s.reported m) := by
  have hlen : (s.reports ++ [Report.ofMismatch m]).length = s.reports.length + 1 :=
    List.length_append
  simp only [report, bind_run, modify_run, get_run, State.note, hlen]
  cases h : s.hookStops <;> simp only [State.hookStops] at h <;> simp only [h] <;> rfl

theorem fail_run (m : Mismatch) (s : State) :
    (fail m : Action α) s =
      .error (if s.hookStops then .interrupted else .mismatch m) (s.reported m) := by
  rw [fail, bind_run, report_run]
  cases s.hookStops <;> rfl

theorem failHere_run (rule : Rule) (message : String) (s : State) :
    (failHere rule message : Action α) s = fail ⟨rule, message, s.cursor.current⟩ s := rfl

theorem takeIf_run (test : Kind → Bool) (s : State) :
    takeIf test s =
      if s.cursor.kind ≠ .endOfInput ∧ test s.cursor.kind = true then
        .ok (some s.cursor.current) s.next
      else .ok none s := by
  simp only [takeIf, bind_run, get_run, Cursor.atEnd]
  by_cases he : s.cursor.kind = .endOfInput <;> by_cases ht : test s.cursor.kind = true <;>
    simp [he, ht, bind_run, modify_run, pure_run, State.next]

/-- What is taken is a token that passes the test and does not end the input. -/
theorem takeIf_some {test : Kind → Bool} {s u : State} {t : Token} :
    takeIf test s = .ok (some t) u ↔
      (s.cursor.kind ≠ .endOfInput ∧ test s.cursor.kind = true) ∧
        s.cursor.current = t ∧ s.next = u := by
  rw [takeIf_run]
  split <;> rename_i h <;> simp [h]

theorem takeIf_none {test : Kind → Bool} {s u : State} :
    takeIf test s = .ok none u ↔
      ¬ (s.cursor.kind ≠ .endOfInput ∧ test s.cursor.kind = true) ∧ s = u := by
  rw [takeIf_run]
  split <;> rename_i h <;> simp [h]

theorem takeIf_ne_error (test : Kind → Bool) (s u : State) (e : Exit) :
    takeIf test s ≠ .error e u := by
  rw [takeIf_run]
  split <;> simp

theorem take?_run (kind : Kind) (hk : kind ≠ .endOfInput) (s : State) :
    take? kind s =
      if s.cursor.kind = kind then .ok (some s.cursor.current) s.next else .ok none s := by
  rw [take?, takeIf_run]
  by_cases h : s.cursor.kind = kind <;> simp [h, hk]

theorem expect_run (kind : Kind) (message : String) (s : State) :
    expect kind message s =
      if s.cursor.kind ≠ .endOfInput ∧ s.cursor.kind = kind then .ok s.cursor.current s.next
      else failHere .token message s := by
  rw [expect, bind_run, take?, takeIf_run]
  simp only [beq_iff_eq]
  by_cases h : s.cursor.kind ≠ .endOfInput ∧ s.cursor.kind = kind
  · rw [if_pos h, if_pos h]
    rfl
  · rw [if_neg h, if_neg h]

theorem passTerminator_run (s : State) :
    passTerminator s =
      match s.cursor.passTerminator? s.depth with
      | some c => .ok true (s.moveTo c)
      | none => .ok false s := by
  rw [passTerminator, bind_run, get_run]
  cases h : s.cursor.passTerminator? s.depth <;> simp [h, bind_run, set_run, pure_run]

theorem requireTerminator_run (message : String) (s : State) :
    requireTerminator message s =
      match s.cursor.passTerminator? s.depth with
      | some c => .ok () (s.moveTo c)
      | none => failHere .terminator message s := by
  rw [requireTerminator, bind_run, passTerminator_run]
  cases s.cursor.passTerminator? s.depth <;> rfl

theorem skipLines_run (s : State) : skipLines s = .ok () s.begun := rfl

/-- What holds of prefix operators, and of the operators of each level if it holds of their operands,
holds of everything between assignments. -/
theorem equalityLevel_induction₂ {P : Grammar.Level → Action Expr → Action Expr → Prop} {n m : Nat}
    {i j : Action Expr} (hu : P .unary (unaryLevel n i) (unaryLevel m j))
    (hb : ∀ b x y, P (Grammar.tighter b) x y → P (.binary b) (binary b n x) (binary b m y)) :
    P (.binary .equality) (equalityLevel n i) (equalityLevel m j) := by
  have hproduct := hb .product _ _ hu
  have hsum := hb .sum _ _ hproduct
  have hcomparison := hb .comparison _ _ hsum
  exact hb .equality _ _ hcomparison

@[inherit_doc equalityLevel_induction₂]
theorem equalityLevel_induction {P : Grammar.Level → Action Expr → Prop} {n : Nat}
    {i : Action Expr} (hu : P .unary (unaryLevel n i))
    (hb : ∀ b x, P (Grammar.tighter b) x → P (.binary b) (binary b n x)) :
    P (.binary .equality) (equalityLevel n i) :=
  equalityLevel_induction₂ (P := fun l x _ => P l x) (m := n) (j := i) hu fun b x _ => hb b x

/-- Only a variable is assigned to; what else stands in front of the equals sign is recorded. -/
theorem assignTo_run (target : Expr) (equals : Token) (value : Expr) (s : State) :
    (∃ name, target = .reference name ∧
      assignTo target equals value s = .ok (.assign name value) s) ∨
    assignTo target equals value s =
      if s.hookStops then .error .interrupted (s.reported (.invalidAssignment equals))
      else .ok target (s.reported (.invalidAssignment equals)) := by
  have hreject : ∀ e : Expr, (report (.invalidAssignment equals) >>= fun _ => pure e) s =
      if s.hookStops then .error .interrupted (s.reported (.invalidAssignment equals))
      else .ok e (s.reported (.invalidAssignment equals)) := by
    intro e
    rw [bind_run, report_run]
    cases s.hookStops <;> rfl
  cases target with
  | reference name => exact .inl ⟨name, rfl, rfl⟩
  | _ => exact .inr (hreject _)

theorem insideBlock_run (step : Action α) (s : State) :
    insideBlock step s =
      match step s.opened with
      | .ok a t => .ok a t.closed
      | .error e t => .error e t.closed := rfl

/-- The four forms of statements, told apart by their first token. -/
theorem statementOver_run (fuel : Nat) (item : Action (Option Stmt)) (s : State) :
    statementOver fuel item s =
      if s.cursor.kind = .keyword .kVar then declarationRest fuel s.next
      else if s.cursor.kind = .keyword .kPrint then
        (endedExpression fuel "Expect ';' or EOL after value." >>= fun e => pure (.print e)) s.next
      else if s.cursor.kind = .leftBrace then blockRest fuel item s.next
      else (endedExpression fuel "Expect ';' or EOL after expression." >>= fun e =>
        pure (.expression e)) s := by
  have hvar := take?_run (.keyword .kVar) (by decide) s
  have hprint := take?_run (.keyword .kPrint) (by decide) s
  have hbrace := take?_run .leftBrace (by decide) s
  unfold statementOver
  by_cases hv : s.cursor.kind = .keyword .kVar
  · simp only [hv, ↓reduceIte] at hvar ⊢
    exact bind_of_ok hvar
  simp only [hv, ↓reduceIte] at hvar ⊢
  refine (bind_of_ok hvar).trans ?_
  by_cases hp : s.cursor.kind = .keyword .kPrint
  · simp only [hp, ↓reduceIte] at hprint ⊢
    exact bind_of_ok hprint
  simp only [hp, ↓reduceIte] at hprint ⊢
  refine (bind_of_ok hprint).trans ?_
  by_cases hb : s.cursor.kind = .leftBrace
  · simp only [hb, ↓reduceIte] at hbrace ⊢
    exact bind_of_ok hbrace
  · simp only [hb, ↓reduceIte] at hbrace ⊢
    exact bind_of_ok hbrace

theorem blockEnd_run (items : List Stmt) (s : State) :
    blockEnd items s =
      if s.cursor.kind = .rightBrace then
        (requireTerminator "Expect statement terminator after block." >>= fun _ =>
          pure (.block items)) s.next
      else failHere .token "Expect '\x7d' after block." s := by
  have hrun := expect_run .rightBrace "Expect '\x7d' after block." s
  by_cases h : s.cursor.kind = .rightBrace
  · have hend : s.cursor.kind ≠ .endOfInput := by rw [h]; decide
    simp only [h, ne_eq, reduceCtorEq, not_false_eq_true, and_self, ↓reduceIte] at hrun ⊢
    exact bind_of_ok hrun
  · simp only [h, and_false, ↓reduceIte] at hrun ⊢
    rw [failHere_run, fail_run] at hrun ⊢
    exact bind_of_error hrun

theorem blockBody_run (fuel : Nat) (item : Action (Option Stmt)) (s : State) :
    blockBody fuel item s = (blockItems item fuel >>= blockEnd) s.begun := rfl

theorem blockItems_run (item : Action (Option Stmt)) (fuel : Nat) (s : State) :
    blockItems item (fuel + 1) s =
      if s.cursor.kind = .rightBrace ∨ s.cursor.kind = .endOfInput then .ok [] s
      else (item >>= fun o => blockItems item fuel >>= fun rest => pure (o.toList ++ rest)) s := by
  have hsees : s.cursor.sees .rightBrace = true ↔ s.cursor.kind = .rightBrace :=
    Cursor.sees_iff (by decide)
  have hguard : (s.cursor.sees .rightBrace || s.cursor.atEnd) = true ↔
      s.cursor.kind = .rightBrace ∨ s.cursor.kind = .endOfInput := by
    rw [Bool.or_eq_true, hsees, Cursor.atEnd_iff]
  rw [blockItems, bind_of_ok (get_run s)]
  by_cases h : s.cursor.kind = .rightBrace ∨ s.cursor.kind = .endOfInput
  · simp only [hguard, h, ↓reduceIte, pure_run]
  · simp only [hguard, h, ↓reduceIte]

theorem recovering_run (step : Action Stmt) (s : State) :
    recovering step s =
      match step s with
      | .ok statement t => .ok (some statement) t
      | .error (.mismatch _) t => .ok none t.resumed
      | .error e t => .error e t := rfl

theorem statement_run (s : State) :
    statement s = statementWithin (s.cursor.left + 1) s := rfl

theorem expression_run (s : State) :
    expression s = expressionWithin (s.cursor.left + 1) s := rfl

/-! ### Programs -/

theorem ends_of_append {t e : Token} {ts rest : List Token} (he : e.kind = .endOfInput)
    (h : ts ++ [e] = t :: rest) : Ends t rest := by
  induction ts generalizing t rest with
  | nil =>
    cases h
    exact he
  | cons u ts ih =>
    cases rest with
    | nil => simp at h
    | cons v rest => exact (ih (List.cons.inj h).2 : Ends v rest)

theorem start?_eq_some {tokens : List Token} {hook : Hook} {s : State} :
    start? tokens hook = some s ↔
      s.cursor.rest = tokens ∧ s.cursor.passed = [] ∧ s.depth = 0 ∧ s.events = [] ∧
        s.reports = [] ∧ s.hook = hook := by
  obtain ⟨⟨p, t, ts, hts⟩, d, es, rs, k⟩ := s
  cases tokens with
  | nil => simp [start?, Cursor.start?, Cursor.rest]
  | cons u us =>
    by_cases hu : Ends u us
    · simp only [start?, Cursor.start?, hu, ↓reduceDIte, Option.map_some, Option.some.injEq,
        State.mk.injEq, Cursor.mk.injEq, Cursor.rest, List.cons.injEq]
      constructor
      · rintro ⟨⟨rfl, rfl, rfl⟩, rfl, rfl, rfl, rfl⟩
        exact ⟨⟨rfl, rfl⟩, rfl, rfl, rfl, rfl, rfl⟩
      · rintro ⟨⟨rfl, rfl⟩, rfl, rfl, rfl, rfl, rfl⟩
        exact ⟨⟨rfl, rfl, rfl⟩, rfl, rfl, rfl, rfl⟩
    · simp only [start?, Cursor.start?, hu, ↓reduceDIte, Option.map_none, reduceCtorEq,
        Cursor.rest, List.cons.injEq, false_iff, not_and]
      rintro ⟨rfl, rfl⟩
      exact absurd hts hu

theorem exists_start {e : Token} (ts : List Token) (he : e.kind = .endOfInput) (hook : Hook) :
    ∃ s, start? (ts ++ [e]) hook = some s := by
  cases h : ts ++ [e] with
  | nil => simp at h
  | cons t rest =>
    exact ⟨_, start?_eq_some (s := { cursor := ⟨[], t, rest, ends_of_append he h⟩, hook }).2
      ⟨rfl, rfl, rfl, rfl, rfl, rfl⟩⟩

theorem entries_run (budget fuel : Nat) (s : State) :
    entries budget (fuel + 1) s =
      if s.cursor.kind = .endOfInput then .ok [] s
      else match statement s with
        | .error e t => .error e t
        | .ok o t =>
          if budgetSpent budget t.mismatches.length then .ok [o] t.stopped
          else (entries budget fuel >>= fun rest => pure (o :: rest)) t := by
  rw [entries, bind_of_ok (get_run s)]
  by_cases he : s.cursor.kind = .endOfInput
  · simp only [Cursor.atEnd_iff, he, ↓reduceIte, pure_run]
  simp only [Cursor.atEnd_iff, he, ↓reduceIte]
  cases ho : statement s with
  | error e t => exact bind_of_error ho
  | ok o t =>
    rw [bind_of_ok ho, bind_of_ok (get_run t)]
    by_cases hb : budgetSpent budget t.mismatches.length = true
    · simp only [hb, ↓reduceIte]
      exact bind_of_ok (set_run t t.stopped)
    · simp only [hb, Bool.false_eq_true, ↓reduceIte]

/-- The number of rounds that reading a program may take. -/
def State.rounds (budget : Nat) (s : State) : Nat :=
  s.cursor.left + 1 + budget + s.hook.interrupts.foldl max 0 + 1

theorem program_run (budget : Nat) (s : State) :
    program budget s =
      match entries budget (s.begun.rounds budget) s.begun with
      | .error e t => .error e t
      | .ok p t => .ok p (t.note (.finished p.length t.mismatches.length)) := by
  have hrounds : ∀ t : State, roundsLeft budget t = .ok (t.rounds budget) t := fun t => rfl
  rw [program, bind_of_ok (skipLines_run s), bind_of_ok (hrounds _), bind_run]
  cases entries budget _ s.begun <;> rfl

end LoxFront.Parse
