import LoxFront.Proofs.Parse.Completeness
import LoxFront.Proofs.Parse.Hook

/-!
# Chains of assignments

Operands joined by equals signs are read to the end, whatever stands on the left of an equals sign
(`assignments_chain`).  The tree goes as far as the operands are names, each assigned what follows
(`AssignsTo`): the first other operand is the value, and what is assigned to it is dropped, even if
there are valid assignments in it.  Every target that is not a name is recorded at the equals sign
behind it.  The value is read before the target is judged, so the rightmost of them comes first
(`rejected`).
-/

namespace LoxFront.Parse

open Grammar

/-! ### Chains -/

/-- The left side of an assignment: its tokens, their tree, and the equals sign behind it. -/
structure Target where
  tokens : List Token
  tree : Expr
  equals : Token

/-- The left side is an operand of the grammar. -/
structure Target.IsOperand (l : Target) : Prop where
  derives : Derives (.binary .equality) l.tokens l.tree
  equals : l.equals.kind = .equal

/-- Only a name can be assigned to. -/
def Target.isName (l : Target) : Bool :=
  match l.tree with
  | .reference _ => true
  | _ => false

/-- The tokens of a chain of assignments, given those of its last operand. -/
def chainTokens (targets : List Target) (last : List Token) : List Token :=
  targets.foldr (fun l ts => l.tokens ++ l.equals :: ts) last

/-- The errors of a chain of assignments: one for each target that is not a name, from the right to the
left. -/
def rejected (targets : List Target) : List Mismatch :=
  ((targets.filter fun l => !l.isName).map fun l => .invalidAssignment l.equals).reverse

/-- The tree of operands that are joined by equals signs: the names in front of the first operand that
is no name, or in front of the last operand, are assigned to, each what follows it. -/
def AssignsTo (operands : List Expr) (tree : Expr) : Prop :=
  ∃ (names : List Token) (value : Expr) (others : List Expr),
    operands = names.map .reference ++ value :: others ∧
      (others = [] ∨ ∀ name, value ≠ .reference name) ∧ tree = names.foldr .assign value

theorem AssignsTo.last (e : Expr) : AssignsTo [e] e := ⟨[], e, [], rfl, .inl rfl, rfl⟩

theorem AssignsTo.name (name : Token) {operands : List Expr} {tree : Expr}
    (h : AssignsTo operands tree) : AssignsTo (.reference name :: operands) (.assign name tree) := by
  obtain ⟨names, value, others, rfl, hvalue, rfl⟩ := h
  exact ⟨name :: names, value, others, rfl, hvalue, rfl⟩

theorem AssignsTo.other {e : Expr} (he : ∀ name, e ≠ .reference name) (operands : List Expr) :
    AssignsTo (e :: operands) e := ⟨[], e, operands, rfl, .inr he, rfl⟩

theorem rejected_of_name {l : Target} {targets : List Target} {name : Token}
    (h : l.tree = .reference name) : rejected (l :: targets) = rejected targets := by
  have hname : l.isName = true := by rw [Target.isName, h]
  simp [rejected, hname]

theorem rejected_of_other {l : Target} {targets : List Target} (h : ∀ name, l.tree ≠ .reference name) :
    rejected (l :: targets) = rejected targets ++ [.invalidAssignment l.equals] := by
  have hname : l.isName = false := by
    unfold Target.isName
    split
    · exact absurd ‹_› (h _)
    · rfl
  simp [rejected, hname]

/-! ### Recording errors -/

/-- The state after errors are recorded and the hook is told of each. -/
def State.recorded (ms : List Mismatch) (s : State) : State := ms.foldl (fun s m => s.reported m) s

/-- The hook interrupts none of the next so many calls. -/
def Calm (n : Nat) (s : State) : Prop :=
  ∀ k ∈ s.hook.interrupts, s.reports.length < k → s.reports.length + n < k

/-- What is recorded is added to the errors and to the calls of the hook. -/
theorem recorded_eq (ms : List Mismatch) (s : State) :
    s.recorded ms = { s with
      events := s.events ++ ms.map .reported
      reports := s.reports ++ ms.map .ofMismatch } := by
  induction ms generalizing s with
  | nil => simp [State.recorded]
  | cons m ms ih =>
    refine (ih (s.reported m)).trans ?_
    simp [State.reported, State.note]

theorem recorded_concat (ms : List Mismatch) (m : Mismatch) (s : State) :
    s.recorded (ms ++ [m]) = (s.recorded ms).reported m := by
  rw [State.recorded, List.foldl_append]
  rfl

theorem mismatches_recorded (ms : List Mismatch) (s : State) :
    (s.recorded ms).mismatches = s.mismatches ++ ms := by
  have hall : (ms.map Event.reported).filterMap Event.mismatch? = ms := by
    rw [List.filterMap_map]
    exact List.filterMap_some
  rw [recorded_eq, State.mismatches, List.filterMap_append, hall, State.mismatches]

/-- One more call: the hook does not interrupt that one either. -/
theorem calm_succ {ms : List Mismatch} {s : State} (h : Calm ms.length s) :
    Calm (ms.length + 1) s ↔ (s.recorded ms).hookStops = false := by
  rw [← Bool.not_eq_true, hookStops_iff, recorded_eq, List.length_append, List.length_map]
  constructor
  · intro hc hmem
    exact Nat.lt_irrefl _ (hc _ hmem (by omega))
  · intro hne k hk hlt
    have hle := h k hk hlt
    have : k ≠ s.reports.length + ms.length + 1 := fun he => hne (he ▸ hk)
    omega

theorem Calm.mono {n m : Nat} {s : State} (h : Calm n s) (hm : m ≤ n) : Calm m s := fun k hk hlt => by
  have := h k hk hlt
  omega

/-! ### Reading a chain -/

/-- A run reads a chain of assignments and comes to rest in front of `rest`, unless the hook interrupts
it when it is told of a target that is not a name. -/
def ReadsChain (r : EStateM.Result Exit State Expr) (s : State) (targets : List Target) (last : Expr)
    (rest : List Token) : Prop :=
  ∃ (c : Cursor) (tree : Expr), c.rest = rest ∧ AssignsTo (targets.map Target.tree ++ [last]) tree ∧
    (Calm (rejected targets).length s → r = .ok tree ((s.moveTo c).recorded (rejected targets))) ∧
    (¬ Calm (rejected targets).length s → ∃ u, r = .error .interrupted u)

/-- The value is read, and the target in front of it is a name or not. -/
theorem ReadsChain.assign {x : Action Expr} {s : State} {d : Cursor} {l : Target}
    {targets : List Target} {last : Expr} {rest : List Token}
    (h : ReadsChain (x (s.moveTo d)) (s.moveTo d) targets last rest) :
    ReadsChain ((x >>= fun value => assignTo l.tree l.equals value) (s.moveTo d)) s (l :: targets) last
      rest := by
  obtain ⟨c, tree, hc, hassigns, hcalm, hstops⟩ := h
  -- neither the calls of the hook nor the place of the end depend on the cursor
  change Calm _ s → _ = EStateM.Result.ok tree ((s.moveTo c).recorded _) at hcalm
  change ¬ Calm _ s → _ at hstops
  by_cases hname : ∃ name, l.tree = .reference name
  · obtain ⟨name, hname⟩ := hname
    rw [ReadsChain, rejected_of_name hname]
    refine ⟨c, .assign name tree, hc, ?_, fun h => ?_, fun h => ?_⟩
    · rw [List.map_cons, hname]
      exact hassigns.name name
    · rw [bind_of_ok (hcalm h), hname]
      rfl
    · obtain ⟨v, hv⟩ := hstops h
      exact ⟨v, bind_of_error hv⟩
  have hother : ∀ name, l.tree ≠ .reference name := fun name h => hname ⟨name, h⟩
  have hreject : ∀ t : State, assignTo l.tree l.equals tree t =
      if t.hookStops then .error .interrupted (t.reported (.invalidAssignment l.equals))
      else .ok l.tree (t.reported (.invalidAssignment l.equals)) := fun t =>
    (assignTo_run l.tree l.equals tree t).resolve_left fun ⟨name, h, _⟩ => hother name h
  rw [ReadsChain, rejected_of_other hother, List.length_append, List.length_singleton]
  refine ⟨c, l.tree, hc, .other hother _, fun h => ?_, fun h => ?_⟩
  · have hfirst := h.mono (Nat.le_succ _)
    have hhook := (calm_succ (s := s.moveTo c) hfirst).1 h
    rw [bind_of_ok (hcalm hfirst), hreject, hhook, recorded_concat]
    rfl
  · by_cases hfirst : Calm (rejected targets).length s
    -- the value is read, and the hook interrupts the work at the target
    · have hhook := mt (calm_succ (s := s.moveTo c) hfirst).2 h
      rw [Bool.not_eq_false] at hhook
      rw [bind_of_ok (hcalm hfirst), hreject, hhook]
      exact ⟨_, rfl⟩
    · obtain ⟨v, hv⟩ := hstops hfirst
      exact ⟨v, bind_of_error hv⟩

/-- **A chain of assignments is read to its end.** -/
theorem assignments_chain {k fuel : Nat} {operand : Action Expr}
    (ho : ∀ ts e, Derives (.binary .equality) ts e → Completes k operand (.binary .equality) ts e)
    (hf : fuel ≤ k) {targets : List Target} (htargets : ∀ l ∈ targets, l.IsOperand)
    {ts : List Token} {e : Expr} (h : Derives (.binary .equality) ts e) {s : State} {t : Token}
    {us : List Token} (hr : s.cursor.rest = chainTokens targets ts ++ t :: us)
    (hl : s.cursor.left < fuel) (hc : ¬ Continues .assignment t.kind) :
    ReadsChain (assignments operand fuel s) s targets e (t :: us) := by
  -- the recursion takes one target with each round
  induction targets generalizing fuel s with
  | nil =>
    obtain ⟨fuel, rfl⟩ : ∃ i, fuel = i + 1 := ⟨fuel - 1, by omega⟩
    obtain ⟨c, hc', hin⟩ := ho ts e h s t us hr (by omega) fun h => hc (.equality h)
    have hne : (t.kind == Kind.equal) ≠ true := by
      intro h
      rw [beq_iff_eq] at h
      exact hc (h ▸ .equals)
    have hrun : assignments operand (fuel + 1) s = .ok e (s.moveTo c) :=
      (bind_of_ok hin).trans (bind_of_ok (takeIf_none_of_rest (s := s.moveTo c) hc' hne))
    refine ⟨c, e, hc', .last e, fun _ => hrun, fun h => absurd ?_ h⟩
    exact fun k _ hlt => hlt
  | cons l targets ih =>
    obtain ⟨fuel, rfl⟩ : ∃ i, fuel = i + 1 := ⟨fuel - 1, by omega⟩
    obtain ⟨⟨hderives, hequal⟩, hothers⟩ := List.forall_mem_cons.1 htargets
    have hr' : s.cursor.rest = l.tokens ++ l.equals :: (chainTokens targets ts ++ t :: us) := by
      rw [hr, chainTokens, List.foldr_cons, List.append_assoc]
      rfl
    have hend : l.equals.kind ≠ .endOfInput := by rw [hequal]; decide
    have hcont : ¬ Continues (.binary .equality) l.equals.kind := by
      intro h
      obtain ⟨b, h⟩ := joins_of_continues h
      rw [hequal] at h
      cases h
    obtain ⟨c, hc', hin⟩ := ho _ _ hderives s _ _ hr' (by omega) hcont
    have hrest : c.advance.rest = chainTokens targets ts ++ t :: us :=
      next_rest (s := s.moveTo c) hc' hend
    have hleft : c.advance.left + 1 = c.left := next_left (s := s.moveTo c) hc' hend
    have hsum := left_of_rest (hr'.trans (congrArg _ hc'.symm))
    have hvalue := ih (s := s.moveTo c.advance) (by omega : fuel ≤ k) hothers hrest
      (show c.advance.left < fuel by omega)
    have hrun : assignments operand (fuel + 1) s =
        (assignments operand fuel >>= fun value => assignTo l.tree l.equals value)
          (s.moveTo c.advance) :=
      (bind_of_ok hin).trans
        (bind_of_ok (takeIf_of_rest (s := s.moveTo c) hc' hend (by rw [hequal]; rfl)))
    rw [hrun]
    exact hvalue.assign

/-- **Assignment chains of any length.**  Where the tokens ahead are operands joined by equals signs,
and what comes behind them does not continue an expression, an expression is read that ends just
behind the last operand.  Its tree is right-nested over the names in front of the first operand that
is no name, which is its value, or else over all names but the last operand; and the new errors are
one for each target that is no name, at the equals sign behind it, the rightmost first.  The only way
for this to fail is that the hook interrupts the work at one of these errors. -/
theorem chains_assign_from_the_right {targets : List Target} (htargets : ∀ l ∈ targets, l.IsOperand)
    {ts : List Token} {e : Expr} (h : Derives (.binary .equality) ts e) {s : State} {t : Token}
    {us : List Token} (hr : s.cursor.rest = chainTokens targets ts ++ t :: us)
    (hc : ¬ Continues .assignment t.kind) :
    (Calm (rejected targets).length s →
      ∃ (c : Cursor) (tree : Expr) (u : State), expression s = .ok tree u ∧
        u = (s.moveTo c).recorded (rejected targets) ∧ c.rest = t :: us ∧
        c.index = s.cursor.index + (chainTokens targets ts).length ∧
        AssignsTo (targets.map Target.tree ++ [e]) tree ∧
        u.mismatches = s.mismatches ++ rejected targets) ∧
    (¬ Calm (rejected targets).length s → ∃ u, expression s = .error .interrupted u) := by
  have hread : ReadsChain (expression s) s targets e (t :: us) := by
    rw [expression_run]
    exact assignments_chain (fun _ _ h => equalityLevel_completes
      (fun _ _ h => expressionWithin_completes _ h) h) (Nat.le_refl _) htargets h hr
      (Nat.lt_succ_self _) hc
  obtain ⟨c, tree, hrest, hassigns, hcalm, hstops⟩ := hread
  refine ⟨fun h => ⟨c, tree, _, hcalm h, rfl, hrest, ?_, hassigns, mismatches_recorded _ _⟩, hstops⟩
  have hleads := ((kept_follows.expressionWithin (s.cursor.left + 1)).ok (hcalm h)).leads
  rw [recorded_eq] at hleads
  have hsum := hleads.index_add_left
  have hleft := left_of_rest (hr.trans (congrArg _ hrest.symm))
  have hcursor : ((s.moveTo c).cursor) = c := rfl
  rw [hcursor] at hsum
  omega

/-- Two numbers among the targets: the first of them is the value of the name in front, and both are
recorded, the second one first. -/
theorem chains_assign_a_number :
    let a : Token := ⟨.identifier, "a", .nil, 1, 1⟩
    let one : Token := ⟨.number, "1", .number (.ofDigits ['1'] []), 1, 3⟩
    let b : Token := ⟨.identifier, "b", .nil, 1, 5⟩
    let two : Token := ⟨.number, "2", .number (.ofDigits ['2'] []), 1, 7⟩
    let equals : Int → Token := fun column => ⟨.equal, "=", .nil, 1, column⟩
    let stop : Token := ⟨.endOfInput, "", .nil, 1, 10⟩
    ∃ s u : State,
      s.cursor.rest = [a, equals 2, one, equals 4, b, equals 6, two, equals 8, a, stop] ∧
        expression s = .ok (.assign a (.literal one.literal)) u ∧ u.cursor.rest = [stop] ∧
        u.mismatches = [.invalidAssignment (equals 8), .invalidAssignment (equals 4)] := by
  intro a one b two equals stop
  have hname : ∀ t : Token, t.kind = .identifier → Derives (.binary .equality) [t] (.reference t) :=
    fun t ht => .operand (.operand (.operand (.operand (.primary (.reference ht)))))
  have hnumber : ∀ t : Token, t.kind = .number →
      Derives (.binary .equality) [t] (.literal t.literal) :=
    fun t ht => .operand (.operand (.operand (.operand (.primary (.literal (.number ht))))))
  let targets : List Target :=
    [⟨[a], .reference a, equals 2⟩, ⟨[one], .literal one.literal, equals 4⟩,
      ⟨[b], .reference b, equals 6⟩, ⟨[two], .literal two.literal, equals 8⟩]
  have htargets : ∀ l ∈ targets, l.IsOperand := by
    simp only [targets, List.forall_mem_cons]
    exact ⟨⟨hname a rfl, rfl⟩, ⟨hnumber one rfl, rfl⟩, ⟨hname b rfl, rfl⟩, ⟨hnumber two rfl, rfl⟩,
      List.forall_mem_nil _⟩
  let s : State :=
    { cursor := ⟨[], a, [equals 2, one, equals 4, b, equals 6, two, equals 8, a, stop], rfl⟩ }
  have hstop : ¬ Continues .assignment stop.kind := by
    intro h
    rcases continues_assignment h with h | ⟨_, h⟩ <;> cases h
  have hr : s.cursor.rest = chainTokens targets [a] ++ stop :: [] := rfl
  obtain ⟨c, tree, u, hrun, rfl, hc, -, -, hm⟩ :=
    (chains_assign_from_the_right htargets (hname a rfl) hr hstop).1
      fun _ hk => absurd hk List.not_mem_nil
  obtain ⟨v, hv⟩ : ∃ v, expression s = .ok (.assign a (.literal one.literal)) v := ⟨_, rfl⟩
  obtain rfl : tree = .assign a (.literal one.literal) := by
    rw [hv] at hrun
    cases hrun
    rfl
  refine ⟨s, _, rfl, hrun, ?_, hm⟩
  rw [recorded_eq]
  exact hc

end LoxFront.Parse
