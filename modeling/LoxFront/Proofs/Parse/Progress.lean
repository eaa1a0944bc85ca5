import LoxFront.Proofs.Parse.Invariant

/-!
# Progress

An expression that is read takes a token (`expressionWithin_takes`).  A statement does so too, read
or dropped, unless the cursor is stuck: at the end of the input, or inside a block at its closing
brace (`statementWithin_left_lt`).  There it drops an empty statement and stays
(`statementWithin_of_stuck`).

The depth matters: after an error the work goes on with the depth at which the statement was begun,
and a closing brace holds the cursor only if that depth is positive.
-/

namespace LoxFront.Parse

variable {α β : Type}

/-! ### Steps that take a token -/

/-- A step that gives a value has taken a token. -/
def Takes (x : Action α) : Prop := ∀ s a t, x s = .ok a t → t.cursor.left < s.cursor.left

theorem left_next {s : State} (h : s.cursor.kind ≠ .endOfInput) :
    s.next.cursor.left + 1 = s.cursor.left := Cursor.left_advance h

/-- The statements of a block are behind its opening brace. -/
theorem left_block_lt {s : State} (h : s.cursor.kind = .leftBrace) :
    s.next.opened.begun.cursor.left < s.cursor.left := by
  have hlt := left_next (s := s) (by rw [h]; decide)
  have hle := (Cursor.Leads.skipLines s.next.cursor).left_le
  show s.next.cursor.skipLines.left < _
  omega

theorem Takes.bind {x : Action α} {f : α → Action β} (hx : Takes x)
    (hf : ∀ a, Keeps Follows Leaves (f a)) : Takes (x >>= f) := by
  intro s b u h
  obtain ⟨a, t, ha, hb⟩ := bind_ok.1 h
  have h1 := hx s a t ha
  have h2 := ((hf a).ok hb).leads.left_le
  omega

/-- What goes on behind a token has a token taken already. -/
theorem Takes.take {test : Kind → Bool} {f : Option Token → Action α}
    (hsome : ∀ t, Keeps Follows Leaves (f (some t))) (hnone : Takes (f none)) :
    Takes (takeIf test >>= f) := by
  intro s a u h
  obtain ⟨o, t, ho, ha⟩ := bind_ok.1 h
  cases o with
  | none =>
    obtain ⟨-, rfl⟩ := takeIf_none.1 ho
    exact hnone s a u ha
  | some tok =>
    obtain ⟨⟨hk, -⟩, -, rfl⟩ := takeIf_some.1 ho
    have h1 := left_next hk
    have h2 := ((hsome tok).ok ha).leads.left_le
    omega

theorem failHere_takes (rule : Rule) (message : String) :
    Takes (failHere rule message : Action α) := by
  intro s a t h
  rw [failHere_run, fail_run] at h
  cases h

theorem throw_takes (e : Exit) : Takes (throw e : Action α) := by
  intro s a t h
  cases h

/-! ### Expressions -/

variable {operand inner : Action Expr}

theorem primary_takes (hi : Keeps Follows Leaves inner) : Takes (primary inner) :=
  .take (kept_follows.primaryFrom hi) (failHere_takes _ _)

theorem prefixed_takes (ht : Takes operand) (hk : Keeps Follows Leaves operand) (fuel : Nat) :
    Takes (prefixed operand fuel) := by
  cases fuel with
  | zero => exact throw_takes _
  | succ fuel =>
    exact .take (fun _ => kept_follows.bind (kept_follows.prefixed hk fuel) fun _ =>
      kept_follows.pure _) ht

theorem binary_takes (ht : Takes operand) (hk : Keeps Follows Leaves operand)
    (level : BinaryLevel) (fuel : Nat) : Takes (binary level fuel operand) :=
  ht.bind fun left => kept_follows.chain hk level fuel left

theorem assignments_takes (ht : Takes operand) (hk : Keeps Follows Leaves operand) (fuel : Nat) :
    Takes (assignments operand fuel) := by
  cases fuel with
  | zero => exact throw_takes _
  | succ fuel =>
    exact ht.bind fun target =>
      kept_follows.assignmentRest (kept_follows.assignments hk fuel) target

theorem equalityLevel_takes (hi : Keeps Follows Leaves inner) (fuel : Nat) :
    Takes (equalityLevel fuel inner) := by
  have hk := kept_follows.primary hi
  refine (equalityLevel_induction (P := fun _ x => Takes x ∧ Keeps Follows Leaves x)
    ⟨prefixed_takes (primary_takes hi) hk fuel, kept_follows.prefixed hk fuel⟩ ?_).1
  rintro b x ⟨ht, hx⟩
  exact ⟨binary_takes ht hx b fuel, kept_follows.binary hx b fuel⟩

/-- **An expression that is read takes a token.** -/
theorem expressionWithin_takes (fuel : Nat) : Takes (expressionWithin fuel) := by
  cases fuel with
  | zero => exact throw_takes _
  | succ fuel =>
    have hi := kept_follows.expressionWithin fuel
    exact assignments_takes (equalityLevel_takes hi _) (kept_follows.equalityLevel hi _) _

/-- No expression begins with a token that is neither a prefix operator nor the beginning of a
primary expression. -/
theorem expressionWithin_of_not_starts {s : State} (fuel : Nat)
    (hpre : ¬ (s.cursor.kind ≠ .endOfInput ∧ isPrefixOperator s.cursor.kind = true))
    (hpri : ¬ (s.cursor.kind ≠ .endOfInput ∧ startsPrimary s.cursor.kind = true)) :
    expressionWithin (fuel + 1) s = failHere .expression "Expect expression." s := by
  have hfail := fail_run (α := Expr) ⟨.expression, "Expect expression.", s.cursor.current⟩ s
  -- the error is found on the innermost level, and each level around it hands it on
  have hunary : unaryLevel (fuel + 1) (expressionWithin fuel) s =
      failHere .expression "Expect expression." s := by
    rw [unaryLevel, prefixed, bind_of_ok (takeIf_none.2 ⟨hpre, rfl⟩)]
    exact bind_of_ok (takeIf_none.2 ⟨hpri, rfl⟩)
  rw [failHere_run, hfail] at hunary ⊢
  exact bind_of_error (bind_of_error (bind_of_error (bind_of_error (bind_of_error hunary))))

/-! ### Statements -/

theorem endedExpression_takes (fuel : Nat) (message : String) :
    Takes (endedExpression fuel message) :=
  (expressionWithin_takes fuel).bind fun _ =>
    kept_follows.bind (kept_follows.requireTerminator _) fun _ => kept_follows.pure _

theorem statementOver_takes {item : Action (Option Stmt)} (hi : Keeps Follows Leaves item)
    (fuel : Nat) : Takes (statementOver fuel item) := by
  refine .take (fun _ => kept_follows.declarationRest fuel) ?_
  refine .take (fun _ => kept_follows.bind (kept_follows.endedExpression fuel _) fun _ =>
    kept_follows.pure _) ?_
  refine .take (fun _ => kept_follows.blockRest hi fuel) ?_
  exact (endedExpression_takes fuel _).bind fun _ => kept_follows.pure _

/-- **A statement, read or dropped, moves the cursor on unless it is stuck.** -/
theorem statementWithin_left_lt {fuel : Nat} {s t : State} {o : Option Stmt}
    (h : statementWithin fuel s = .ok o t) (hs : ¬ s.cursor.Stuck s.depth) :
    t.cursor.left < s.cursor.left := by
  cases fuel with
  | zero => cases h
  | succ fuel =>
    have hi := kept_follows.statementWithin fuel
    rw [statementWithin, recovering_run] at h
    cases ho : statementOver (fuel + 1) (statementWithin fuel) s with
    | ok stmt u =>
      rw [ho] at h
      cases h
      exact statementOver_takes hi _ s stmt t ho
    | error e u =>
      have hf := ((kept_follows.statementOver hi _).error ho).toFollows
      cases e with
      | interrupted => rw [ho] at h; cases h
      | endless => rw [ho] at h; cases h
      | mismatch m =>
        rw [ho] at h
        cases h
        -- either the error came after a token was taken, or recovery starts where the statement did
        by_cases hl : u.cursor.left = s.cursor.left
        · have hc := hf.leads.eq_of_left_eq hl
          show (u.cursor.resume u.depth).left < s.cursor.left
          rw [hc, hf.depth]
          exact Cursor.resume_left_lt hs
        · have h1 := hf.leads.left_le
          have h2 := (Cursor.Leads.resume u.depth u.cursor).left_le
          show (u.cursor.resume u.depth).left < s.cursor.left
          omega

/-- **A stuck statement is dropped where it stands.** -/
theorem statementWithin_of_stuck {s : State} (fuel : Nat) (hs : s.cursor.Stuck s.depth)
    (hh : s.hookStops = false) :
    ∃ t, statementWithin (fuel + 1) s = .ok none t ∧ t.cursor = s.cursor := by
  have hnone : ∀ test : Kind → Bool, test .rightBrace = false →
      ¬ (s.cursor.kind ≠ .endOfInput ∧ test s.cursor.kind = true) := by
    rintro test ht ⟨hk, htk⟩
    rcases hs with hs | ⟨hs, -⟩
    · exact hk hs
    · rw [hs, ht] at htk
      cases htk
  have htake : ∀ k : Kind, (Kind.rightBrace == k) = false → take? k s = .ok none s :=
    fun k hk => takeIf_none.2 ⟨hnone (· == k) hk, rfl⟩
  have he := expressionWithin_of_not_starts fuel (hnone isPrefixOperator rfl)
    (hnone startsPrimary rfl)
  -- no keyword is there to take, so an expression is tried
  have hover : statementOver (fuel + 1) (statementWithin fuel) s =
      .error (.mismatch ⟨.expression, "Expect expression.", s.cursor.current⟩)
        (s.reported ⟨.expression, "Expect expression.", s.cursor.current⟩) := by
    rw [failHere_run, fail_run, hh] at he
    rw [statementOver, bind_of_ok (htake _ rfl)]
    refine (bind_of_ok (htake _ rfl)).trans ((bind_of_ok (htake _ rfl)).trans ?_)
    exact bind_of_error (bind_of_error he)
  refine ⟨_, by rw [statementWithin, recovering_run, hover], ?_⟩
  exact Cursor.resume_of_stuck hs

end LoxFront.Parse
