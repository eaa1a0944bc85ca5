import LoxFront.Proofs.Diagnostic.Quoting
import LoxFront.Proofs.Parse.Writing

/-!
# Trees are made of the tokens of the stream

Parsing makes no tokens of its own.  The names and the operators in a tree are tokens of the stream,
and a literal is the value of one (`Expr.From`, `Stmt.From`), also where errors have been recorded and
statements dropped (`program_gathers`).  So what holds of all tokens of a stream holds of all that
stands in its trees.

The tokens ahead of a state are among those ahead of any state in front of it.  A step gathers
(`Gathers`) if it makes what it gives of the tokens ahead; this is shown for one step after another,
as it is in `Yields` for what does not depend on the stream.

So the trees of a text have lexemes for their names, operators and literals (`from_of_ofText`).
-/

namespace LoxFront

open Grammar Lexical

/-- An expression is made of tokens in `Q`: they are its names and operators, and have the values that
are its literals. -/
def Expr.From (Q : Token → Prop) : Expr → Prop
  | .literal v => ∃ t, Q t ∧ Denotes t v
  | .reference name => Q name ∧ name.kind = .identifier
  | .assign name value => (Q name ∧ name.kind = .identifier) ∧ value.From Q
  | .unary operator right => (Q operator ∧ Negates operator.kind) ∧ right.From Q
  | .binary left operator right =>
    left.From Q ∧ (Q operator ∧ ∃ b, Joins b operator.kind) ∧ right.From Q
  | .group inner => inner.From Q

mutual

/-- A statement is made of tokens in `Q`. -/
def Stmt.From (Q : Token → Prop) : Stmt → Prop
  | .expression e => e.From Q
  | .print e => e.From Q
  | .declare name initial => (Q name ∧ name.kind = .identifier) ∧ ∀ e ∈ initial, e.From Q
  | .block items => Stmt.ItemsFrom Q items

/-- Statements are made of tokens in `Q`. -/
def Stmt.ItemsFrom (Q : Token → Prop) : List Stmt → Prop
  | [] => True
  | s :: rest => s.From Q ∧ Stmt.ItemsFrom Q rest

end

/-- The statements of a program are made of tokens in `Q`. -/
def Program.From (Q : Token → Prop) (p : Program) : Prop := ∀ s, some s ∈ p → s.From Q

namespace Parse

variable {α β : Type} {Q : Token → Prop}

/-- All tokens ahead are in `Q`. -/
def Ahead (Q : Token → Prop) (s : State) : Prop := ∀ t ∈ s.cursor.rest, Q t

theorem Ahead.follows {s t : State} (hs : Ahead Q s) (h : Follows s t) : Ahead Q t := by
  obtain ⟨taken, -, hrest, -⟩ := h.leads.exists_taken
  exact fun u hu => hs u (hrest ▸ List.mem_append_right _ hu)

theorem Ahead.current {s : State} (hs : Ahead Q s) : Q s.cursor.current := hs _ List.mem_cons_self

/-- What a step gives is in `P` if all tokens ahead are in `Q`, and then they still are. -/
def Gathers (Q : Token → Prop) (x : Action α) (P : α → Prop) : Prop :=
  ∀ s a t, Ahead Q s → x s = .ok a t → P a ∧ Ahead Q t

namespace Gathers

variable {x : Action α} {f : α → Action β} {P : α → Prop} {R : β → Prop}

theorem pure {a : α} (h : P a) : Gathers Q (pure a : Action α) P := by
  rintro s b t hs hb
  cases hb
  exact ⟨h, hs⟩

theorem throw (e : Exit) : Gathers Q (throw e : Action α) P := fun _ _ _ _ h => by cases h

theorem bind (hx : Gathers Q x P) (hf : ∀ a, P a → Gathers Q (f a) R) : Gathers Q (x >>= f) R := by
  intro s b u hs h
  obtain ⟨a, t, ha, hb⟩ := bind_ok.1 h
  obtain ⟨hP, ht⟩ := hx s a t hs ha
  exact hf a hP t b u ht hb

/-- A step that gives nothing of interest. -/
theorem of_keeps (hx : Keeps Follows Leaves x) : Gathers Q x fun _ => True :=
  fun _ _ _ hs h => ⟨trivial, hs.follows (hx.ok h)⟩

theorem after (hx : Keeps Follows Leaves x) (hf : ∀ a, Gathers Q (f a) R) : Gathers Q (x >>= f) R :=
  (of_keeps hx).bind fun a _ => hf a

/-- The value of a step, changed. -/
theorem map {g : α → β} (hx : Gathers Q x P) (hg : ∀ a, P a → R (g a)) :
    Gathers Q (x >>= fun a => Pure.pure (g a)) R :=
  hx.bind fun a ha => .pure (hg a ha)

theorem takeIf (test : Kind → Bool) :
    Gathers Q (takeIf test) fun o => ∀ t, o = some t → Q t ∧ test t.kind = true := by
  intro s o u hs h
  refine ⟨?_, hs.follows ((kept_follows.takeIf test).ok h)⟩
  rintro t rfl
  obtain ⟨⟨-, hk⟩, rfl, -⟩ := takeIf_some.1 h
  exact ⟨hs.current, hk⟩

theorem failHere (rule : Rule) (message : String) : Gathers Q (failHere rule message) P :=
  fun _ _ _ _ h => absurd h (failHere_ne_ok _ _ _ _ _)

theorem expect (kind : Kind) (message : String) :
    Gathers Q (expect kind message) fun t => Q t ∧ t.kind = kind := by
  intro s t u hs h
  obtain ⟨hrest, hk, rfl⟩ := expect_ok h
  exact ⟨⟨hs t (hrest ▸ List.mem_cons_self), hk⟩, hs.follows (.next s)⟩

end Gathers

/-! ### Expressions -/

section Levels

variable {operand inner : Action Expr}

theorem primary_gathers (hi : Gathers Q inner (Expr.From Q)) :
    Gathers Q (primary inner) (Expr.From Q) := by
  refine (Gathers.takeIf _).bind fun o ho => ?_
  cases o with
  | none => exact .failHere _ _
  | some tok =>
    obtain ⟨hQ, -⟩ := ho tok rfl
    intro s e t hs h
    rcases primaryFrom_ok h with ⟨v, hv, rfl, rfl⟩ | ⟨hn, rfl, rfl⟩ | ⟨-, -, h⟩
    · exact ⟨⟨tok, hQ, literal?_eq_some.1 hv⟩, hs⟩
    · exact ⟨⟨hQ, hn⟩, hs⟩
    · refine hi.bind (fun e he => ?_) s e t hs h
      exact (Gathers.expect _ _).map fun _ _ => he

theorem prefixed_gathers (ho : Gathers Q operand (Expr.From Q)) (fuel : Nat) :
    Gathers Q (prefixed operand fuel) (Expr.From Q) := by
  induction fuel with
  | zero => exact .throw _
  | succ fuel ih =>
    refine (Gathers.takeIf _).bind fun o hop => ?_
    cases o with
    | none => exact ho
    | some tok =>
      obtain ⟨hQ, hneg⟩ := hop tok rfl
      exact ih.map fun right hr => ⟨⟨hQ, isPrefixOperator_iff.1 hneg⟩, hr⟩

theorem chain_gathers (level : BinaryLevel) (ho : Gathers Q operand (Expr.From Q)) (fuel : Nat)
    {left : Expr} (hleft : left.From Q) : Gathers Q (chain level operand fuel left) (Expr.From Q) := by
  induction fuel generalizing left with
  | zero => exact .throw _
  | succ fuel ih =>
    refine (Gathers.takeIf _).bind fun o hop => ?_
    cases o with
    | none => exact .pure hleft
    | some tok =>
      obtain ⟨hQ, hjoin⟩ := hop tok rfl
      exact ho.bind fun right hr => ih ⟨hleft, ⟨hQ, level, hasOperator_iff.1 hjoin⟩, hr⟩

theorem equalityLevel_gathers (hi : Gathers Q inner (Expr.From Q)) (fuel : Nat) :
    Gathers Q (equalityLevel fuel inner) (Expr.From Q) :=
  equalityLevel_induction (P := fun _ x => Gathers Q x (Expr.From Q))
    (prefixed_gathers (primary_gathers hi) fuel) fun b _ hx =>
      hx.bind fun _ hleft => chain_gathers b hx fuel hleft

/-- The name of an assignment is that of the variable on its left, and other targets stay as they
are. -/
theorem assignTo_gathers {target value : Expr} (equals : Token) (ht : target.From Q)
    (hv : value.From Q) : Gathers Q (assignTo target equals value) (Expr.From Q) := by
  cases target with
  | reference name => exact .pure ⟨ht, hv⟩
  | _ => exact .after (report_follows _) fun _ => .pure ht

theorem assignments_gathers (ho : Gathers Q operand (Expr.From Q)) (fuel : Nat) :
    Gathers Q (assignments operand fuel) (Expr.From Q) := by
  induction fuel with
  | zero => exact .throw _
  | succ fuel ih =>
    refine ho.bind fun target ht => .after (kept_follows.takeIf _) fun o => ?_
    cases o with
    | none => exact .pure ht
    | some equals => exact ih.bind fun value hv => assignTo_gathers equals ht hv

end Levels

/-- **Every expression is made of the tokens ahead.** -/
theorem expressionWithin_gathers (fuel : Nat) :
    Gathers Q (expressionWithin fuel) (Expr.From Q) := by
  induction fuel with
  | zero => exact .throw _
  | succ fuel ih => exact assignments_gathers (equalityLevel_gathers ih _) _

/-! ### Statements -/

theorem endedExpression_gathers (fuel : Nat) (message : String) :
    Gathers Q (endedExpression fuel message) (Expr.From Q) :=
  (expressionWithin_gathers fuel).bind fun _ he =>
    .after (kept_follows.requireTerminator _) fun _ => .pure he

theorem initialValue_gathers (fuel : Nat) :
    Gathers Q (initialValue fuel) fun o => ∀ e ∈ o, e.From Q := by
  refine .after (kept_follows.takeIf _) fun o => ?_
  cases o with
  | none => exact .pure fun e h => by cases h
  | some t =>
    refine (expressionWithin_gathers fuel).map fun e he f hf => ?_
    cases hf
    exact he

theorem declarationRest_gathers (fuel : Nat) : Gathers Q (declarationRest fuel) (Stmt.From Q) :=
  (Gathers.expect _ _).bind fun _ hn => (initialValue_gathers fuel).bind fun _ hi =>
    .after (kept_follows.requireTerminator _) fun _ => .pure ⟨hn, hi⟩

section Blocks

variable {item : Action (Option Stmt)}

/-- A statement, if there is one, is made of tokens in `Q`. -/
def ItemFrom (Q : Token → Prop) (o : Option Stmt) : Prop := ∀ s ∈ o, s.From Q

theorem blockItems_gathers (hi : Gathers Q item (ItemFrom Q)) (fuel : Nat) :
    Gathers Q (blockItems item fuel) (Stmt.ItemsFrom Q) := by
  induction fuel with
  | zero => exact .throw _
  | succ fuel ih =>
    intro s items t hs h
    rw [blockItems_run] at h
    split_ifs at h with hg
    · cases h
      exact ⟨trivial, hs⟩
    · refine hi.bind (fun o ho => ih.map fun rest hrest => ?_) s items t hs h
      cases o with
      | none => exact hrest
      | some stmt => exact ⟨ho stmt rfl, hrest⟩

theorem blockBody_gathers (hi : Gathers Q item (ItemFrom Q)) (fuel : Nat) :
    Gathers Q (blockBody fuel item) (Stmt.From Q) :=
  .after kept_follows.skipLines fun _ => (blockItems_gathers hi fuel).bind fun _ hitems =>
    .after (kept_follows.expect _ _) fun _ =>
      .after (kept_follows.requireTerminator _) fun _ => .pure hitems

theorem insideBlock_gathers {x : Action α} {P : α → Prop} (hx : Gathers Q x P) :
    Gathers Q (insideBlock x) P := by
  intro s a t hs h
  rw [insideBlock_run] at h
  cases hr : x s.opened with
  | ok b u =>
    rw [hr] at h
    cases h
    exact hx s.opened _ u hs hr
  | error e u =>
    rw [hr] at h
    cases h

theorem statementOver_gathers (hi : Gathers Q item (ItemFrom Q)) (fuel : Nat) :
    Gathers Q (statementOver fuel item) (Stmt.From Q) := by
  intro s stmt t hs h
  have hnext : Ahead Q s.next := hs.follows (.next s)
  rw [statementOver_run] at h
  split_ifs at h with hv hp hb
  · exact declarationRest_gathers fuel _ _ _ hnext h
  · exact (endedExpression_gathers fuel _).map (g := Stmt.print) (fun _ he => he) _ _ _ hnext h
  · exact insideBlock_gathers (blockBody_gathers hi fuel) _ _ _ hnext h
  · exact (endedExpression_gathers fuel _).map (g := Stmt.expression) (fun _ he => he) _ _ _ hs h

end Blocks

/-- **Every statement is made of the tokens ahead**, behind errors too. -/
theorem statementWithin_gathers (fuel : Nat) :
    Gathers Q (statementWithin fuel) (ItemFrom Q) := by
  induction fuel with
  | zero => exact .throw _
  | succ fuel ih =>
    intro s o t hs h
    -- what comes behind a dropped statement is ahead of it too
    refine ⟨?_, hs.follows ((kept_follows.statementWithin _).ok h)⟩
    rintro stmt rfl
    rw [statementWithin, recovering_run] at h
    cases hr : statementOver (fuel + 1) (statementWithin fuel) s with
    | ok stmt' u =>
      rw [hr] at h
      cases h
      exact (statementOver_gathers ih _ _ _ _ hs hr).1
    | error e u =>
      rw [hr] at h
      cases e <;> cases h

/-! ### Programs -/

theorem entries_gathers (budget fuel : Nat) : Gathers Q (entries budget fuel) (Program.From Q) := by
  induction fuel with
  | zero => exact .throw _
  | succ fuel ih =>
    intro s p t hs h
    refine ⟨?_, hs.follows ((keptThroughout_follows.entries budget _).ok h)⟩
    rw [entries_run] at h
    split_ifs at h with hk
    · cases h
      exact fun _ h => by cases h
    cases ho : statement s with
    | error e u => rw [ho] at h; cases h
    | ok o u =>
      obtain ⟨hstmt, hu⟩ := statementWithin_gathers _ _ _ _ hs ho
      simp only [ho] at h
      split_ifs at h with hb
      · cases h
        exact fun stmt hmem => hstmt stmt (List.mem_singleton.1 hmem).symm
      · obtain ⟨rest, v, hrest, hv⟩ := bind_ok.1 h
        cases hv
        intro stmt hmem
        rcases List.mem_cons.1 hmem with hmem | hmem
        · exact hstmt stmt hmem.symm
        · exact (ih _ _ _ hu hrest).1 stmt hmem

/-- **The trees of a program are made of its tokens.** -/
theorem program_gathers (budget : Nat) : Gathers Q (program budget) (Program.From Q) := by
  intro s p t hs h
  refine ⟨?_, hs.follows ((keptThroughout_follows.program budget).ok h)⟩
  rw [program_run] at h
  split at h
  · cases h
  · rename_i q u hq
    cases h
    have hbegun : Ahead Q s.begun := hs.follows (kept_follows.skipLines.ok (skipLines_run s))
    exact (entries_gathers _ _ _ _ _ hbegun hq).1

/-- A token is a lexeme of its kind and with its value, unless it is the end of the input. -/
def IsScanned (t : Token) : Prop := t.kind ≠ .endOfInput → IsLexeme t.kind t.lexeme.toList t.literal

theorem isScanned_of_scan {text : List Char} {tokens : List Token}
    (h : Token.scan text = .ok tokens) : ∀ t ∈ tokens, IsScanned t := by
  obtain ⟨ts, rfl, hstand, -⟩ := tokens_of_scan h
  intro t ht hk
  rcases List.mem_append.1 ht with ht | ht
  · obtain ⟨⟨_, _, w, -, hw, hlex, -⟩, -⟩ := hstand t ht
    rwa [hw, String.toList_ofList]
  · rw [List.mem_singleton.1 ht] at hk
    exact absurd rfl hk

/-- **The trees of a text are made of its lexemes.** -/
theorem from_of_ofText {options : Options} {hook : Hook} {text : String} {o : Outcome}
    (h : ofText options hook text = .ok o) : Program.From IsScanned o.result.statements := by
  obtain ⟨s, p, t, hscan, -, hp, hresult⟩ := exists_program_of_ofText h
  have hall := (program_gathers _ s p t (isScanned_of_scan hscan) hp).1
  intro stmt hmem
  refine hall stmt ?_
  -- at most the placeholders have been left out
  rw [hresult, outcome] at hmem
  split_ifs at hmem with hkeep
  · exact hmem
  · exact List.mem_of_mem_filter hmem

/-- A text is parsed if its statements can be given. -/
theorem exists_ofText (options : Options) (hook : Hook) (text : String) {p : Program}
    (h : (ofText options hook text).toOption.map (·.result.statements) = some p) :
    ∃ o, ofText options hook text = .ok o ∧ o.result.statements = p := by
  cases ho : ofText options hook text with
  | error e =>
    rw [ho] at h
    cases h
  | ok o =>
    rw [ho] at h
    exact ⟨o, rfl, Option.some.inj h⟩

end Parse

end LoxFront
