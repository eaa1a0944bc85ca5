import LoxFront.Proofs.Parse.Invariant

/-!
# The words of errors at tokens

There are nine messages about tokens that do not fit a rule, each of them about one rule (`wordings`),
and no run of the parser records an error in other words (`program_words`).  What is known of these
messages is so known of every error about a program: it has no newline in it, for one thing
(`newline_notMem_message`).
-/

namespace LoxFront.Parse

variable {α β : Type}

/-- The messages at tokens, with the rules that they are about. -/
def wordings : List (Rule × String) :=
  [(.token, "Expect variable name."), (.token, "Expect ')' after expression."),
    (.token, "Expect '\x7d' after block."),
    (.terminator, "Expect ';' or EOL after variable declaration."),
    (.terminator, "Expect ';' or EOL after value."),
    (.terminator, "Expect ';' or EOL after expression."),
    (.terminator, "Expect statement terminator after block."),
    (.expression, "Expect expression."), (.assignment, "Invalid assignment target.")]

/-- All errors recorded so far are in these words. -/
def Worded (s : State) : Prop := ∀ m ∈ s.mismatches, (m.rule, m.message) ∈ wordings

theorem Worded.reported {s : State} {m : Mismatch} (hs : Worded s)
    (hm : (m.rule, m.message) ∈ wordings) : Worded (s.reported m) := by
  intro e he
  rw [State.mismatches_reported] at he
  rcases List.mem_append.1 he with he | he
  · exact hs e he
  · rwa [List.mem_singleton.1 he]

/-- Without new errors there are no other words. -/
theorem Worded.of_mismatches {s t : State} (hs : Worded s) (h : t.mismatches = s.mismatches) :
    Worded t := by
  intro m hm
  rw [h] at hm
  exact hs m hm

/-- A step records errors in these words only, also where it leaves early. -/
def Words (x : Action α) : Prop := ∀ s, Worded s → Worded (final (x s))

namespace Words

variable {x : Action α} {f : α → Action β}

/-- A step that records no errors. -/
theorem of_mismatches (h : ∀ s, (final (x s)).mismatches = s.mismatches) : Words x :=
  fun s hs => hs.of_mismatches (h s)

theorem pure (a : α) : Words (pure a : Action α) := fun _ hs => hs

theorem throw (e : Exit) : Words (throw e : Action α) := fun _ hs => hs

theorem bind (hx : Words x) (hf : ∀ a, Words (f a)) : Words (x >>= f) := by
  intro s hs
  have ht := hx s hs
  rw [bind_run]
  cases hr : x s with
  | ok a t =>
    rw [hr] at ht
    exact hf a t ht
  | error e t =>
    rw [hr] at ht
    exact ht

/-! ### Single steps -/

theorem report {m : Mismatch} (hm : (m.rule, m.message) ∈ wordings) : Words (report m) := by
  intro s hs
  rw [report_run]
  cases s.hookStops <;> exact hs.reported hm

theorem failHere {rule : Rule} {message : String} (h : (rule, message) ∈ wordings) :
    Words (failHere rule message : Action α) := by
  intro s hs
  rw [failHere_run, fail_run]
  exact hs.reported h

theorem takeIf (test : Kind → Bool) : Words (takeIf test) := by
  refine of_mismatches fun s => ?_
  rw [takeIf_run]
  split <;> rfl

theorem expect (kind : Kind) {message : String} (h : (.token, message) ∈ wordings) :
    Words (expect kind message) := by
  refine (takeIf _).bind fun o => ?_
  cases o with
  | none => exact failHere h
  | some t => exact .pure t

theorem skipLines : Words skipLines := of_mismatches fun _ => rfl

theorem passTerminator : Words passTerminator := by
  refine of_mismatches fun s => ?_
  rw [passTerminator_run]
  cases s.cursor.passTerminator? s.depth <;> rfl

theorem requireTerminator {message : String} (h : (.terminator, message) ∈ wordings) :
    Words (requireTerminator message) := by
  refine passTerminator.bind fun passed => ?_
  cases passed with
  | false => exact failHere h
  | true => exact .pure ()

end Words

/-! ### Expressions -/

section Levels

variable {operand inner : Action Expr}

theorem primary_words (hi : Words inner) : Words (primary inner) := by
  refine (Words.takeIf _).bind fun o => ?_
  cases o with
  | none => exact .failHere (by decide)
  | some t =>
    dsimp only [primaryFrom]
    split
    · exact .pure _
    · split
      · exact .pure _
      · exact hi.bind fun _ => (Words.expect _ (by decide)).bind fun _ => .pure _

theorem prefixed_words (ho : Words operand) (fuel : Nat) : Words (prefixed operand fuel) := by
  induction fuel with
  | zero => exact .throw _
  | succ fuel ih =>
    refine (Words.takeIf _).bind fun o => ?_
    cases o with
    | none => exact ho
    | some t => exact ih.bind fun _ => .pure _

theorem chain_words (level : BinaryLevel) (ho : Words operand) (fuel : Nat) (left : Expr) :
    Words (chain level operand fuel left) := by
  induction fuel generalizing left with
  | zero => exact .throw _
  | succ fuel ih =>
    refine (Words.takeIf _).bind fun o => ?_
    cases o with
    | none => exact .pure left
    | some t => exact ho.bind fun _ => ih _

theorem equalityLevel_words (hi : Words inner) (fuel : Nat) : Words (equalityLevel fuel inner) :=
  equalityLevel_induction (P := fun _ x => Words x) (prefixed_words (primary_words hi) fuel)
    fun b _ hx => hx.bind fun left => chain_words b hx fuel left

theorem assignTo_words (target : Expr) (equals : Token) (value : Expr) :
    Words (assignTo target equals value) := by
  have hwords : (Rule.assignment, "Invalid assignment target.") ∈ wordings := by decide
  cases target with
  | reference name => exact .pure _
  | _ => exact (Words.report (m := .invalidAssignment equals) hwords).bind fun _ => .pure _

theorem assignments_words (ho : Words operand) (fuel : Nat) : Words (assignments operand fuel) := by
  induction fuel with
  | zero => exact .throw _
  | succ fuel ih =>
    refine ho.bind fun target => (Words.takeIf _).bind fun o => ?_
    cases o with
    | none => exact .pure target
    | some equals => exact ih.bind fun value => assignTo_words target equals value

end Levels

theorem expressionWithin_words (fuel : Nat) : Words (expressionWithin fuel) := by
  induction fuel with
  | zero => exact .throw _
  | succ fuel ih => exact assignments_words (equalityLevel_words ih _) _

/-! ### Statements -/

theorem endedExpression_words (fuel : Nat) {message : String}
    (h : (.terminator, message) ∈ wordings) : Words (endedExpression fuel message) :=
  (expressionWithin_words fuel).bind fun _ => (Words.requireTerminator h).bind fun _ => .pure _

theorem initialValue_words (fuel : Nat) : Words (initialValue fuel) := by
  refine (Words.takeIf _).bind fun o => ?_
  cases o with
  | none => exact .pure none
  | some t => exact (expressionWithin_words fuel).bind fun _ => .pure _

theorem declarationRest_words (fuel : Nat) : Words (declarationRest fuel) :=
  (Words.expect _ (by decide)).bind fun _ => (initialValue_words fuel).bind fun _ =>
    (Words.requireTerminator (by decide)).bind fun _ => .pure _

section Blocks

variable {item : Action (Option Stmt)}

theorem blockItems_words (hi : Words item) (fuel : Nat) : Words (blockItems item fuel) := by
  induction fuel with
  | zero => exact .throw _
  | succ fuel ih =>
    intro s hs
    rw [blockItems_run]
    split_ifs
    · exact hs
    · exact (hi.bind fun _ => ih.bind fun _ => .pure _) s hs

theorem blockRest_words (hi : Words item) (fuel : Nat) : Words (blockRest fuel item) := by
  have hbody : Words (blockBody fuel item) :=
    Words.skipLines.bind fun _ => (blockItems_words hi fuel).bind fun _ =>
      (Words.expect _ (by decide)).bind fun _ =>
        (Words.requireTerminator (by decide)).bind fun _ => .pure _
  intro s hs
  have ht := hbody s.opened hs
  rw [blockRest, insideBlock_run]
  cases hr : blockBody fuel item s.opened with
  | ok a t =>
    rw [hr] at ht
    exact ht
  | error e t =>
    rw [hr] at ht
    exact ht

theorem statementOver_words (hi : Words item) (fuel : Nat) : Words (statementOver fuel item) := by
  intro s hs
  have hnext : Worded s.next := hs
  rw [statementOver_run]
  split_ifs with hv hp hb
  · exact declarationRest_words fuel _ hnext
  · exact ((endedExpression_words fuel (by decide)).bind fun _ => .pure _) _ hnext
  · exact blockRest_words hi fuel _ hnext
  · exact ((endedExpression_words fuel (by decide)).bind fun _ => .pure _) _ hs

end Blocks

theorem statementWithin_words (fuel : Nat) : Words (statementWithin fuel) := by
  induction fuel with
  | zero => exact .throw _
  | succ fuel ih =>
    intro s hs
    have ht := statementOver_words ih (fuel + 1) s hs
    rw [statementWithin, recovering_run]
    cases hr : statementOver (fuel + 1) (statementWithin fuel) s with
    | ok stmt t =>
      rw [hr] at ht
      exact ht
    | error e t =>
      rw [hr] at ht
      cases e with
      | mismatch m => exact ht.of_mismatches t.mismatches_resumed
      | interrupted => exact ht
      | endless => exact ht

/-! ### Programs -/

theorem entries_words (budget fuel : Nat) : Words (entries budget fuel) := by
  induction fuel with
  | zero => exact .throw _
  | succ fuel ih =>
    intro s hs
    have ht : Worded (final (statement s)) := statementWithin_words _ s hs
    rw [entries_run]
    split_ifs with hk
    · exact hs
    cases ho : statement s with
    | error e t =>
      rw [ho] at ht
      exact ht
    | ok o t =>
      rw [ho] at ht
      dsimp only
      split_ifs with hb
      · exact ht.of_mismatches t.mismatches_stopped
      · exact (ih.bind fun _ => .pure _) t ht

/-- **Every run words its errors so.** -/
theorem program_words (budget : Nat) : Words (program budget) := by
  intro s hs
  have ht := entries_words budget (s.begun.rounds budget) s.begun hs
  rw [program_run]
  cases hr : entries budget (s.begun.rounds budget) s.begun with
  | error e t =>
    rw [hr] at ht
    exact ht
  | ok p t =>
    rw [hr] at ht
    exact ht.of_mismatches (State.mismatches_finished _ _ t)

/-- The message about a token has no newline in it. -/
theorem newline_notMem_message {m : Mismatch} (h : (m.rule, m.message) ∈ wordings) :
    '\n' ∉ m.message.toList := by
  have hall : ∀ x ∈ wordings, '\n' ∉ x.2.toList := by decide +kernel
  exact hall _ h

end LoxFront.Parse
