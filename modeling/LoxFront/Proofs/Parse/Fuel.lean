import LoxFront.Proofs.Parse.Progress

/-!
# Fuel

The loops of parsing run on fuel.  With more fuel than there are tokens ahead it never runs out, and
how much more there is makes no difference (`statementWithin_eq`, `expressionWithin_eq`): each round
takes a token first, so the fuel and the tokens go down together.

`Settled k x y` says that two steps that differ in their fuel only agree, and that the fuel lasts,
wherever fewer than `k` tokens are ahead.
-/

namespace LoxFront.Parse

variable {α β : Type}

/-- Two steps agree and do not run out of fuel where fewer than `k` tokens are ahead. -/
def Settled (k : Nat) (x y : Action α) : Prop :=
  ∀ s : State, s.cursor.left < k → x s = y s ∧ ∀ t, x s ≠ .error .endless t

namespace Settled

variable {k : Nat}

theorem mono {j : Nat} {x y : Action α} (h : Settled k x y) (hj : j ≤ k) : Settled j x y :=
  fun s hs => h s (by omega)

theorem zero (x y : Action α) : Settled 0 x y := fun _ hs => absurd hs (Nat.not_lt_zero _)

theorem rfl_of {x : Action α} (h : ∀ s t, x s ≠ .error .endless t) : Settled k x x :=
  fun s _ => ⟨rfl, h s⟩

theorem pure (a : α) : Settled k (pure a : Action α) (pure a) := rfl_of fun _ _ h => by cases h

theorem bind {x y : Action α} {f g : α → Action β} (hx : Settled k x y)
    (hk : Keeps Follows Leaves x) (hf : ∀ a, Settled k (f a) (g a)) :
    Settled k (x >>= f) (y >>= g) := by
  intro s hs
  obtain ⟨heq, hne⟩ := hx s hs
  -- the first step leaves no more tokens ahead than there were
  rw [bind_run, bind_run, ← heq]
  cases hxs : x s with
  | error e t =>
    refine ⟨rfl, fun u hu => hne t ?_⟩
    cases hu
    exact hxs
  | ok a t =>
    have := (hk.ok hxs).leads.left_le
    exact hf a t (by omega)

/-- Behind a token there is one token less ahead. -/
theorem take {test : Kind → Bool} {f g : Option Token → Action α}
    (hsome : ∀ t, Settled k (f (some t)) (g (some t)))
    (hnone : Settled (k + 1) (f none) (g none)) :
    Settled (k + 1) (takeIf test >>= f) (takeIf test >>= g) := by
  intro s hs
  cases ho : takeIf test s with
  | error e t => exact absurd ho (takeIf_ne_error test s t e)
  | ok o t =>
    rw [bind_of_ok ho, bind_of_ok ho]
    cases o with
    | none =>
      obtain ⟨-, rfl⟩ := takeIf_none.1 ho
      exact hnone s hs
    | some tok =>
      obtain ⟨⟨hk, -⟩, -, rfl⟩ := takeIf_some.1 ho
      have := left_next hk
      exact hsome tok s.next (by omega)

/-- Loops are settled if one more round is, given the rounds behind it. -/
theorem fuel_induction {x y : Nat → Action α} {n m : Nat} (hn : k ≤ n) (hm : k ≤ m)
    (h : ∀ j n m, j < k → j ≤ n → j ≤ m → Settled j (x n) (y m) →
      Settled (j + 1) (x (n + 1)) (y (m + 1))) : Settled k (x n) (y m) := by
  induction k generalizing n m with
  | zero => exact .zero _ _
  | succ k ih =>
    obtain ⟨n, rfl⟩ : ∃ i, n = i + 1 := ⟨n - 1, by omega⟩
    obtain ⟨m, rfl⟩ : ∃ i, m = i + 1 := ⟨m - 1, by omega⟩
    have hn' : k ≤ n := by omega
    have hm' : k ≤ m := by omega
    exact h k n m (Nat.lt_succ_self k) hn' hm'
      (ih hn' hm' fun j n m hj => h j n m (Nat.lt_succ_of_lt hj))

end Settled

variable {k n m : Nat}

theorem report_settled (m : Mismatch) : Settled k (report m) (report m) :=
  .rfl_of fun s t h => by
    rw [report_run] at h
    split at h <;> cases h

theorem failHere_settled (rule : Rule) (message : String) :
    Settled k (failHere rule message : Action α) (failHere rule message) :=
  .rfl_of fun s t h => by
    rw [failHere_run, fail_run] at h
    split at h <;> cases h

theorem expect_settled (kind : Kind) (message : String) :
    Settled k (expect kind message) (expect kind message) :=
  .rfl_of fun s t h => by
    rw [expect_run] at h
    split at h
    · cases h
    · exact (failHere_settled _ _ s (Nat.lt_succ_self _)).2 t h

theorem requireTerminator_settled (message : String) :
    Settled k (requireTerminator message) (requireTerminator message) :=
  .rfl_of fun s t h => by
    rw [requireTerminator_run] at h
    split at h
    · cases h
    · exact (failHere_settled _ _ s (Nat.lt_succ_self _)).2 t h

/-! ### Expressions -/

section Expressions

variable {operand operand' inner inner' : Action Expr}

theorem chain_settled (hk : Keeps Follows Leaves operand) (ho : Settled k operand operand')
    (level : BinaryLevel) (hn : k ≤ n) (hm : k ≤ m) (left : Expr) :
    Settled k (chain level operand n left) (chain level operand' m left) := by
  induction k generalizing n m left with
  | zero => exact .zero _ _
  | succ k ih =>
    obtain ⟨n, rfl⟩ : ∃ i, n = i + 1 := ⟨n - 1, by omega⟩
    obtain ⟨m, rfl⟩ : ∃ i, m = i + 1 := ⟨m - 1, by omega⟩
    have ho' := ho.mono (Nat.le_succ k)
    refine .take (fun t => .bind ho' hk fun right => ?_) (.pure left)
    exact ih ho' (by omega) (by omega) _

theorem binary_settled (hk : Keeps Follows Leaves operand) (ho : Settled k operand operand')
    (level : BinaryLevel) (hn : k ≤ n) (hm : k ≤ m) :
    Settled k (binary level n operand) (binary level m operand') :=
  ho.bind hk fun left => chain_settled hk ho level hn hm left

theorem prefixed_settled (hk : Keeps Follows Leaves operand) (ho : Settled k operand operand')
    (hn : k ≤ n) (hm : k ≤ m) : Settled k (prefixed operand n) (prefixed operand' m) := by
  refine .fuel_induction hn hm fun j n m hj _ _ hrec => ?_
  exact .take (fun t => hrec.bind (kept_follows.prefixed hk n) fun _ => .pure _) (ho.mono hj)

theorem assignTo_settled (target : Expr) (equals : Token) (value : Expr) :
    Settled k (assignTo target equals value) (assignTo target equals value) := by
  cases target with
  | reference name => exact .pure _
  | _ => exact (report_settled _).bind (report_follows _) fun _ => .pure _

theorem assignments_settled (hk : Keeps Follows Leaves operand) (ho : Settled k operand operand')
    (hn : k ≤ n) (hm : k ≤ m) : Settled k (assignments operand n) (assignments operand' m) := by
  refine .fuel_induction hn hm fun j n m hj _ _ hrec => ?_
  refine (ho.mono hj).bind hk fun target => .take (fun t => ?_) (.pure _)
  exact hrec.bind (kept_follows.assignments hk n) fun value => assignTo_settled _ _ _

theorem primary_settled (hk : Keeps Follows Leaves inner) (hi : Settled k inner inner') :
    Settled (k + 1) (primary inner) (primary inner') := by
  refine .take (fun t => ?_) (failHere_settled _ _)
  simp only [primaryFrom]
  split
  · exact .pure _
  · split
    · exact .pure _
    · exact hi.bind hk fun e => (expect_settled _ _).bind (kept_follows.expect _ _) fun _ => .pure _

theorem equalityLevel_settled (hk : Keeps Follows Leaves inner) (hi : Settled k inner inner')
    (hn : k < n) (hm : k < m) :
    Settled (k + 1) (equalityLevel n inner) (equalityLevel m inner') := by
  have hpk := kept_follows.primary hk
  refine (equalityLevel_induction₂
    (P := fun _ x y => Settled (k + 1) x y ∧ Keeps Follows Leaves x)
    ⟨prefixed_settled hpk (primary_settled hk hi) hn hm, kept_follows.prefixed hpk n⟩ ?_).1
  rintro b x y ⟨hxy, hx⟩
  exact ⟨binary_settled hx hxy b hn hm, kept_follows.binary hx b n⟩

theorem expressionWithin_settled (hn : k ≤ n) (hm : k ≤ m) :
    Settled k (expressionWithin n) (expressionWithin m) := by
  refine .fuel_induction hn hm fun j n m _ hn hm hi => ?_
  have hk := kept_follows.expressionWithin n
  have hn' : j < n + 1 := Nat.lt_succ_of_le hn
  have hm' : j < m + 1 := Nat.lt_succ_of_le hm
  exact assignments_settled (kept_follows.equalityLevel hk _) (equalityLevel_settled hk hi hn' hm')
    hn' hm'

end Expressions

/-! ### Statements -/

section Statements

theorem endedExpression_settled (hn : k ≤ n) (hm : k ≤ m) (message : String) :
    Settled k (endedExpression n message) (endedExpression m message) :=
  (expressionWithin_settled hn hm).bind (kept_follows.expressionWithin n) fun e =>
    (requireTerminator_settled _).bind (kept_follows.requireTerminator _) fun _ => .pure e

theorem initialValue_settled (hn : k ≤ n) (hm : k ≤ m) :
    Settled k (initialValue n) (initialValue m) := by
  cases k with
  | zero => exact .zero _ _
  | succ k =>
    refine .take (fun t => ?_) (.pure none)
    exact (expressionWithin_settled (by omega) (by omega)).bind (kept_follows.expressionWithin n)
      fun e => .pure _

theorem declarationRest_settled (hn : k ≤ n) (hm : k ≤ m) :
    Settled k (declarationRest n) (declarationRest m) :=
  (expect_settled _ _).bind (kept_follows.expect _ _) fun _ =>
    (initialValue_settled hn hm).bind (kept_follows.initialValue n) fun _ =>
      (requireTerminator_settled _).bind (kept_follows.requireTerminator _) fun _ => .pure _

variable {item item' : Action (Option Stmt)}

/-- A step that moves the cursor on unless it is stuck. -/
def Progresses (item : Action (Option Stmt)) : Prop :=
  ∀ s o t, item s = .ok o t → ¬ s.cursor.Stuck s.depth → t.cursor.left < s.cursor.left

theorem blockItems_settled (hk : Keeps Follows Leaves item) (hp : Progresses item)
    (hi : Settled k item item') (hn : k ≤ n) (hm : k ≤ m) :
    Settled k (blockItems item n) (blockItems item' m) := by
  refine .fuel_induction hn hm fun j n m hj _ _ hrec => ?_
  intro s hs
  obtain ⟨heq, hne⟩ := hi s (by omega)
  rw [blockItems_run, blockItems_run]
  split
  · exact ⟨rfl, fun t h => by cases h⟩
  rename_i hguard
  rw [bind_run, bind_run, ← heq]
  cases ho : item s with
  | error e t =>
    refine ⟨rfl, fun u hu => hne t ?_⟩
    cases hu
    exact ho
  | ok o t =>
    -- the statement has moved on, since the cursor is not stuck
    have := hp s o t ho fun h => hguard (h.symm.imp And.left id)
    exact hrec.bind (kept_follows.blockItems hk n) (fun _ => .pure _) t (by omega)

theorem blockBody_settled (hk : Keeps Follows Leaves item) (hp : Progresses item)
    (hi : Settled k item item') (hn : k ≤ n) (hm : k ≤ m) :
    Settled k (blockBody n item) (blockBody m item') := by
  have hskip : Settled k skipLines skipLines := .rfl_of fun s t h => by cases h
  refine hskip.bind kept_follows.skipLines fun _ => ?_
  refine (blockItems_settled hk hp hi hn hm).bind (kept_follows.blockItems hk n) fun items => ?_
  refine (expect_settled _ _).bind (kept_follows.expect _ _) fun _ => ?_
  exact (requireTerminator_settled _).bind (kept_follows.requireTerminator _) fun _ => .pure _

theorem insideBlock_settled {x y : Action α} (h : Settled k x y) :
    Settled k (insideBlock x) (insideBlock y) := by
  intro s hs
  obtain ⟨heq, hne⟩ := h s.opened hs
  rw [insideBlock_run, insideBlock_run, ← heq]
  refine ⟨rfl, fun t ht => ?_⟩
  cases hx : x s.opened with
  | ok a u => rw [hx] at ht; cases ht
  | error e u =>
    rw [hx] at ht
    cases ht
    exact hne _ hx

theorem recovering_settled {x y : Action Stmt} (h : Settled k x y) :
    Settled k (recovering x) (recovering y) := by
  intro s hs
  obtain ⟨heq, hne⟩ := h s hs
  rw [recovering_run, recovering_run, ← heq]
  refine ⟨rfl, fun t ht => ?_⟩
  cases hx : x s with
  | ok a u => rw [hx] at ht; cases ht
  | error e u =>
    rw [hx] at ht
    cases e with
    | mismatch m => cases ht
    | interrupted => cases ht
    | endless => exact hne _ hx

theorem statementOver_settled (hk : Keeps Follows Leaves item) (hp : Progresses item)
    (hi : Settled k item item') (hn : k < n) (hm : k < m) :
    Settled (k + 1) (statementOver n item) (statementOver m item') := by
  have hended := fun message => endedExpression_settled (k := k + 1) hn hm message
  refine .take (fun _ => declarationRest_settled (Nat.le_of_lt hn) (Nat.le_of_lt hm)) ?_
  refine .take (fun _ => ((hended _).mono (Nat.le_succ k)).bind
    (kept_follows.endedExpression n _) fun _ => .pure _) ?_
  refine .take (fun _ => insideBlock_settled
    (blockBody_settled hk hp hi (Nat.le_of_lt hn) (Nat.le_of_lt hm))) ?_
  exact (hended _).bind (kept_follows.endedExpression n _) fun _ => .pure _

theorem statementWithin_progresses (fuel : Nat) : Progresses (statementWithin fuel) :=
  fun _ _ _ h hs => statementWithin_left_lt h hs

theorem statementWithin_settled (hn : k ≤ n) (hm : k ≤ m) :
    Settled k (statementWithin n) (statementWithin m) := by
  refine .fuel_induction hn hm fun j n m _ hn hm hrec => ?_
  exact recovering_settled (statementOver_settled (kept_follows.statementWithin n)
    (statementWithin_progresses n) hrec (Nat.lt_succ_of_le hn) (Nat.lt_succ_of_le hm))

end Statements

/-! ### Without fuel -/

/-- **Fuel beyond the tokens ahead makes no difference** to an expression. -/
theorem expressionWithin_eq {fuel : Nat} {s : State} (h : s.cursor.left < fuel) :
    expressionWithin fuel s = expression s := by
  have hs := expressionWithin_settled (k := s.cursor.left + 1) h (Nat.le_refl _)
  rw [expression_run]
  exact (hs s (Nat.lt_succ_self _)).1

/-- **Fuel beyond the tokens ahead makes no difference** to a statement. -/
theorem statementWithin_eq {fuel : Nat} {s : State} (h : s.cursor.left < fuel) :
    statementWithin fuel s = statement s := by
  have hs := statementWithin_settled (k := s.cursor.left + 1) h (Nat.le_refl _)
  rw [statement_run]
  exact (hs s (Nat.lt_succ_self _)).1

theorem expression_ne_endless (s t : State) : expression s ≠ .error .endless t := by
  have hs := expressionWithin_settled (Nat.le_refl (s.cursor.left + 1)) (Nat.le_refl _)
  rw [expression_run]
  exact (hs s (Nat.lt_succ_self _)).2 t

theorem statement_ne_endless (s t : State) : statement s ≠ .error .endless t := by
  have hs := statementWithin_settled (Nat.le_refl (s.cursor.left + 1)) (Nat.le_refl _)
  rw [statement_run]
  exact (hs s (Nat.lt_succ_self _)).2 t

end LoxFront.Parse
