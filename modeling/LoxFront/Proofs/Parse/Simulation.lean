import LoxFront.Proofs.Parse.Rounds

/-!
# Two runs side by side

Two runs of the same step are compared: from states that are near to each other they do the same and
come to states that are near to each other again.  Names and operators of the second run may be other
tokens than those of the first (`Simulation.relabel`), so trees are equal up to that.

A `Simulation` lists what the single changes of the state have to keep; then every expression goes
side by side (`Simulation.expressionWithin`).  Where statements end more may happen, and an
`EndingSimulation` says what; a `StatementSimulation` says so of blocks too.  Either the runs stay
near to each other, or the first run comes to the end of its input between two statements while the
second one goes on (`Apart`), or the first run does something that it cannot make undone (`Lost`).
Then every statement goes side by side (`StatementSimulation.statementWithin`), and so do the entries
of a program (`StatementSimulation.steps`).
-/

namespace LoxFront

/-! ### Trees with other tokens -/

/-- The expression with other names and operators. -/
def Expr.map (f : Token → Token) : Expr → Expr
  | .literal v => .literal v
  | .reference name => .reference (f name)
  | .assign name value => .assign (f name) (value.map f)
  | .unary operator right => .unary (f operator) (right.map f)
  | .binary left operator right => .binary (left.map f) (f operator) (right.map f)
  | .group inner => .group (inner.map f)

mutual

/-- The statement with other names and operators. -/
def Stmt.map (f : Token → Token) : Stmt → Stmt
  | .expression e => .expression (e.map f)
  | .print e => .print (e.map f)
  | .declare name initial => .declare (f name) (initial.map (Expr.map f))
  | .block items => .block (Stmt.mapItems f items)

@[inherit_doc Stmt.map]
def Stmt.mapItems (f : Token → Token) : List Stmt → List Stmt
  | [] => []
  | s :: rest => s.map f :: Stmt.mapItems f rest

end

/-- The entries of a program with other names and operators. -/
def Program.map (f : Token → Token) (p : Program) : Program := List.map (Option.map (Stmt.map f)) p

theorem Expr.map_id (e : Expr) : e.map id = e := by
  induction e <;> simp_all [Expr.map]

mutual

theorem Stmt.map_id : (s : Stmt) → s.map id = s
  | .expression e => by rw [Stmt.map, Expr.map_id]
  | .print e => by rw [Stmt.map, Expr.map_id]
  | .declare name initial => by
    cases initial with
    | none => rfl
    | some e => rw [Stmt.map, Option.map_some, Expr.map_id]; rfl
  | .block items => by rw [Stmt.map, Stmt.mapItems_id items]

theorem Stmt.mapItems_id : (items : List Stmt) → Stmt.mapItems id items = items
  | [] => rfl
  | s :: rest => by rw [Stmt.mapItems, Stmt.map_id s, Stmt.mapItems_id rest]

end

theorem Program.map_id (p : Program) : p.map id = p := by
  have : Stmt.map id = id := funext Stmt.map_id
  rw [Program.map, this, Option.map_id, List.map_id]

namespace Parse

variable {α β : Type}

/-! ### What is compared -/

/-- The kinds of tokens that are taken wherever they fit.  The others end a statement, a block, or
the input. -/
def Taken (k : Kind) : Prop :=
  k ≠ .endOfLine ∧ k ≠ .semicolon ∧ k ≠ .rightBrace ∧ k ≠ .endOfInput

theorem taken_of_hasOperator {level : BinaryLevel} {k : Kind} (h : level.hasOperator k = true) :
    Taken k := by
  refine ⟨?_, ?_, ?_, ?_⟩ <;> rintro rfl <;> cases level <;> cases h

theorem taken_of_isPrefixOperator {k : Kind} (h : isPrefixOperator k = true) : Taken k := by
  refine ⟨?_, ?_, ?_, ?_⟩ <;> rintro rfl <;> cases h

theorem taken_of_startsPrimary {k : Kind} (h : startsPrimary k = true) : Taken k := by
  refine ⟨?_, ?_, ?_, ?_⟩ <;> rintro rfl <;> cases h

instance (k : Kind) : Decidable (Taken k) :=
  inferInstanceAs (Decidable (k ≠ .endOfLine ∧ k ≠ .semicolon ∧ k ≠ .rightBrace ∧ k ≠ .endOfInput))

/-- Two runs are compared while their states are near to each other and the first is not lost. -/
structure Simulation where
  /-- What the second run has for a token of the first. -/
  relabel : Token → Token
  /-- The states are near to each other. -/
  Near : State → State → Prop
  /-- The first run has done something that it cannot make undone. -/
  Lost : State → Prop
  kind_relabel (t : Token) : (relabel t).kind = t.kind
  literal_relabel (t : Token) : (relabel t).literal = t.literal
  hooks {s t : State} : Near s t → t.hookStops = s.hookStops
  same {s t : State} : Near s t → Taken s.cursor.kind ∨ Taken t.cursor.kind →
    t.cursor.current = relabel s.cursor.current
  next {s t : State} : Near s t → Taken s.cursor.kind → Near s.next t.next ∨ Lost s.next
  failed {s t : State} (rule : Rule) (message : String) : Near s t →
    Near (s.reported ⟨rule, message, s.cursor.current⟩)
      (t.reported ⟨rule, message, t.cursor.current⟩)
  rejected {s t : State} {equals : Token} : Near s t → equals.kind = .equal →
    Near (s.reported (.invalidAssignment equals)) (t.reported (.invalidAssignment (relabel equals)))
  lost {s t : State} : Follows s t → Lost s → Lost t

/-- Without other tokens their kinds are the same. -/
theorem kind_id (t : Token) : (id t).kind = t.kind := rfl

/-- Without other tokens their values are the same. -/
theorem literal_id (t : Token) : (id t).literal = t.literal := rfl

/-- Where no run is lost none ever is. -/
theorem never_lost {s t : State} (_ : Follows s t) (h : False) : False := h

/-- Two runs leave early in the same way. -/
inductive Similar : Exit → Exit → Prop
  | mismatch (m n : Mismatch) : Similar (.mismatch m) (.mismatch n)
  | interrupted : Similar .interrupted .interrupted
  | endless : Similar .endless .endless

namespace Simulation

variable (S : Simulation)

/-- The first run is lost, or would go on without end. -/
def Vain (r : EStateM.Result Exit State α) : Prop :=
  (∃ s, r = .error .endless s) ∨ S.Lost (final r)

/-- Two results fit: the values are related by `g`, and the states near to each other, or behind a
value related by `A`. -/
inductive Tracked (g : α → α) (A : State → State → Prop) :
    EStateM.Result Exit State α → EStateM.Result Exit State α → Prop
  | ok {a : α} {s t : State} : S.Near s t → Tracked g A (.ok a s) (.ok (g a) t)
  | error {e f : Exit} {s t : State} : Similar e f → S.Near s t →
      Tracked g A (.error e s) (.error f t)
  | apart {a : α} {s t : State} : A s t → Tracked g A (.ok a s) (.ok (g a) t)
  | vain {r r' : EStateM.Result Exit State α} : S.Vain r → Tracked g A r r'

/-- From states near to each other two steps go side by side. -/
def Tracks (g : α → α) (A : State → State → Prop) (x y : Action α) : Prop :=
  ∀ s t, S.Near s t → S.Tracked g A (x s) (y t)

/-- Nothing leads apart. -/
def Never (_ _ : State) : Prop := False

/-- No run is lost. -/
def Nowhere (_ : State) : Prop := False

theorem Never.closed {s t : State} (h : Never s t) : Never s.closed t.closed := h

theorem Never.atEnd {s t : State} (h : Never s t) : s.cursor.kind = .endOfInput := h.elim

/-- Two runs of an expression go side by side. -/
abbrev TracksExpr (x : Action Expr) : Prop := S.Tracks (Expr.map S.relabel) Never x x

variable {S}

theorem Vain.bind {x : Action α} {F : α → Action β} (hF : ∀ a, Keeps Follows Leaves (F a))
    {s : State} (h : S.Vain (x s)) : S.Vain ((x >>= F) s) := by
  cases hx : x s with
  | error e t =>
    rw [hx] at h
    rw [bind_of_error hx]
    exact h.imp (fun ⟨u, hu⟩ => ⟨u, by cases hu; rfl⟩) id
  | ok a t =>
    rw [hx] at h
    rcases h with ⟨u, hu⟩ | h
    · cases hu
    · rw [bind_of_ok hx]
      exact .inr (S.lost ((hF a).final t) h)

variable {g : α → α} {g' : β → β} {A : State → State → Prop}

theorem Tracked.bind {x y : Action α} {F G : α → Action β} (hF : ∀ a, Keeps Follows Leaves (F a))
    (hf : ∀ a, S.Tracks g' A (F a) (G (g a))) {s t : State}
    (h : S.Tracked g Never (x s) (y t)) : S.Tracked g' A ((x >>= F) s) ((y >>= G) t) := by
  generalize hr : x s = r at h
  generalize hr' : y t = r' at h
  cases h with
  | ok hn =>
    rw [bind_of_ok hr, bind_of_ok hr']
    exact hf _ _ _ hn
  | error hs hn =>
    rw [bind_of_error hr, bind_of_error hr']
    exact .error hs hn
  | apart h => exact absurd h id
  | vain h => exact .vain ((hr.symm ▸ h : S.Vain (x s)).bind hF)

theorem Tracks.bind {x y : Action α} {F G : α → Action β} (hx : S.Tracks g Never x y)
    (hF : ∀ a, Keeps Follows Leaves (F a)) (hf : ∀ a, S.Tracks g' A (F a) (G (g a))) :
    S.Tracks g' A (x >>= F) (y >>= G) :=
  fun s t h => (hx s t h).bind hF hf

/-- A value is made of the value of a step. -/
theorem Tracked.map {x y : Action α} {F : α → β} {G : α → β} (hf : ∀ a, G (g a) = g' (F a))
    {s t : State} (h : S.Tracked g A (x s) (y t)) :
    S.Tracked g' A ((x >>= fun a => Pure.pure (F a)) s) ((y >>= fun a => Pure.pure (G a)) t) := by
  generalize hr : x s = r at h
  generalize hr' : y t = r' at h
  cases h with
  | ok hn =>
    rw [bind_of_ok hr, bind_of_ok hr', pure_run, pure_run, hf]
    exact .ok hn
  | error hs hn =>
    rw [bind_of_error hr, bind_of_error hr']
    exact .error hs hn
  | apart ha =>
    rw [bind_of_ok hr, bind_of_ok hr', pure_run, pure_run, hf]
    exact .apart ha
  | vain h => exact .vain ((hr.symm ▸ h : S.Vain (x s)).bind fun _ => kept_follows.pure _)

theorem Tracks.map {x y : Action α} {F G : α → β} (hx : S.Tracks g A x y)
    (hf : ∀ a, G (g a) = g' (F a)) :
    S.Tracks g' A (x >>= fun a => Pure.pure (F a)) (y >>= fun a => Pure.pure (G a)) :=
  fun s t h => (hx s t h).map hf

variable (S)

theorem pure (a : α) : S.Tracks g A (Pure.pure a) (Pure.pure (g a)) := fun _ _ h => .ok h

theorem throw_endless : S.Tracks g A (throw .endless) (throw .endless) :=
  fun _ _ h => .error .endless h

theorem failHere (rule : Rule) (message : String) :
    S.Tracks g A (failHere rule message) (failHere rule message) := by
  intro s t h
  rw [failHere_run, failHere_run, fail_run, fail_run, S.hooks h]
  cases s.hookStops
  · exact .error (.mismatch _ _) (S.failed rule message h)
  · exact .error .interrupted (S.failed rule message h)

theorem kind_eq {s t : State} (h : S.Near s t) (hk : Taken s.cursor.kind ∨ Taken t.cursor.kind) :
    t.cursor.kind = s.cursor.kind := by
  rw [Cursor.kind, S.same h hk, S.kind_relabel]

theorem kind_iff {s t : State} (h : S.Near s t) {k : Kind} (hk : Taken k) :
    s.cursor.kind = k ↔ t.cursor.kind = k := by
  constructor
  · rintro rfl
    exact S.kind_eq h (.inl hk)
  · rintro rfl
    exact (S.kind_eq h (.inr hk)).symm

/-- Behind a token that is taken in both runs the next step goes side by side. -/
theorem tracked_next {x y : Action α} (hk : Keeps Follows Leaves x) (hx : S.Tracks g A x y)
    {s t : State} (h : S.Near s.next t.next ∨ S.Lost s.next) :
    S.Tracked g A (x s.next) (y t.next) := by
  rcases h with hn | hl
  · exact hx _ _ hn
  · exact .vain (.inr (S.lost (hk.final _) hl))

/-- A test that only passes tokens that are taken wherever they fit. -/
theorem takeIf {test : Kind → Bool} (htest : ∀ k, test k = true → Taken k) :
    S.Tracks (Option.map S.relabel) Never (takeIf test) (takeIf test) := by
  intro s t h
  rw [takeIf_run, takeIf_run]
  by_cases hs : s.cursor.kind ≠ .endOfInput ∧ test s.cursor.kind = true
  · have hk := htest _ hs.2
    have hsame := S.same h (.inl hk)
    rw [if_pos hs, if_pos (S.kind_eq h (.inl hk) ▸ hs), hsame]
    rcases S.next h hk with hn | hl
    · exact .ok hn
    · exact .vain (.inr hl)
  -- if the second run took a token, the first one would see the same kind of token
  · have ht : ¬ (t.cursor.kind ≠ .endOfInput ∧ test t.cursor.kind = true) := by
      intro ht
      exact hs (S.kind_eq h (.inr (htest _ ht.2)) ▸ ht)
    rw [if_neg hs, if_neg ht]
    exact .ok (a := none) h

theorem take? {kind : Kind} (hk : Taken kind) :
    S.Tracks (Option.map S.relabel) Never (take? kind) (take? kind) :=
  S.takeIf fun k h => by rwa [beq_iff_eq.1 h]

theorem expect {kind : Kind} (hk : Taken kind) (message : String) :
    S.Tracks S.relabel Never (expect kind message) (expect kind message) := by
  refine (S.take? hk).bind (fun o => ?_) fun o => ?_
  · cases o with
    | none => exact kept_follows.failHere _ _ (by decide)
    | some t => exact kept_follows.pure t
  · cases o with
    | none => exact S.failHere _ _
    | some t => exact S.pure t

/-! ### Expressions -/

section Expressions

variable {operand inner : Action Expr}

theorem chain (hk : Keeps Follows Leaves operand)
    (ho : S.TracksExpr operand) (level : BinaryLevel) (fuel : Nat)
    (left : Expr) :
    S.Tracks (Expr.map S.relabel) Never (chain level operand fuel left)
      (chain level operand fuel (left.map S.relabel)) := by
  induction fuel generalizing left with
  | zero => exact S.throw_endless
  | succ fuel ih =>
    refine (S.takeIf fun k => taken_of_hasOperator).bind (fun o => ?_) fun o => ?_
    · cases o with
      | none => exact kept_follows.pure left
      | some t => exact kept_follows.bind hk fun right => kept_follows.chain hk _ _ _
    · cases o with
      | none => exact S.pure left
      | some t => exact ho.bind (fun right => kept_follows.chain hk _ _ _) fun right => ih _

theorem binary (hk : Keeps Follows Leaves operand)
    (ho : S.TracksExpr operand) (level : BinaryLevel)
    (fuel : Nat) :
    S.TracksExpr (binary level fuel operand) :=
  ho.bind (fun left => kept_follows.chain hk level fuel left) fun left => S.chain hk ho level fuel left

theorem prefixed (hk : Keeps Follows Leaves operand)
    (ho : S.TracksExpr operand) (fuel : Nat) :
    S.TracksExpr (prefixed operand fuel) := by
  induction fuel with
  | zero => exact S.throw_endless
  | succ fuel ih =>
    refine (S.takeIf fun k => taken_of_isPrefixOperator).bind (fun o => ?_) fun o => ?_
    · cases o with
      | none => exact hk
      | some t => exact kept_follows.bind (kept_follows.prefixed hk fuel) fun _ => kept_follows.pure _
    · cases o with
      | none => exact ho
      | some t => exact ih.map fun right => rfl

theorem assignTo {equals : Token} (he : equals.kind = .equal) (target value : Expr) :
    S.Tracks (Expr.map S.relabel) Never (assignTo target equals value)
      (assignTo (target.map S.relabel) (S.relabel equals) (value.map S.relabel)) := by
  have hreject : ∀ e : Expr, S.Tracks (Expr.map S.relabel) Never
      (report (.invalidAssignment equals) >>= fun _ => Pure.pure e)
      (report (.invalidAssignment (S.relabel equals)) >>= fun _ => Pure.pure (e.map S.relabel)) := by
    intro e s t h
    rw [bind_run, bind_run, report_run, report_run, S.hooks h]
    cases s.hookStops
    · exact .ok (S.rejected h he)
    · exact .error .interrupted (S.rejected h he)
  cases target with
  | reference name => exact S.pure (Expr.assign name value)
  | _ => exact hreject _

theorem assignmentRest {value : Action Expr} (hk : Keeps Follows Leaves value)
    (hv : S.TracksExpr value) (target : Expr) :
    S.Tracks (Expr.map S.relabel) Never (assignmentRest target value)
      (assignmentRest (target.map S.relabel) value) := by
  intro s t h
  have hequal : Taken .equal := by decide
  have hs := take?_run .equal (by decide) s
  have ht := take?_run .equal (by decide) t
  rw [Parse.assignmentRest, Parse.assignmentRest]
  by_cases he : s.cursor.kind = .equal
  · rw [if_pos he] at hs
    rw [if_pos ((S.kind_iff h hequal).1 he), S.same h (.inl (he ▸ hequal))] at ht
    rw [bind_of_ok hs, bind_of_ok ht]
    refine S.tracked_next ?_ ?_ (S.next h (he ▸ hequal))
    · exact kept_follows.bind hk fun v => assignTo_follows _ _ _
    · exact hv.bind (fun v => assignTo_follows _ _ _) fun v => S.assignTo he target v
  · rw [if_neg he] at hs
    rw [if_neg (mt (S.kind_iff h hequal).2 he)] at ht
    rw [bind_of_ok hs, bind_of_ok ht]
    exact .ok h

theorem assignments (hk : Keeps Follows Leaves operand)
    (ho : S.TracksExpr operand) (fuel : Nat) :
    S.TracksExpr (assignments operand fuel) := by
  induction fuel with
  | zero => exact S.throw_endless
  | succ fuel ih =>
    have hrest := kept_follows.assignments hk fuel
    exact ho.bind (fun target => kept_follows.assignmentRest hrest target) fun target =>
      S.assignmentRest hrest ih target

theorem groupRest (hi : S.TracksExpr inner) :
    S.TracksExpr (groupRest inner) :=
  hi.bind (fun _ => kept_follows.bind (kept_follows.expect _ _) fun _ => kept_follows.pure _)
    fun e => (S.expect (by decide) _).map fun _ => rfl

theorem literal?_relabel (t : Token) : literal? (S.relabel t) = literal? t := by
  rw [literal?, literal?, S.kind_relabel, S.literal_relabel]

theorem primaryFrom (hi : S.TracksExpr inner) (t : Token) :
    S.Tracks (Expr.map S.relabel) Never (primaryFrom inner t) (primaryFrom inner (S.relabel t)) := by
  simp only [Parse.primaryFrom, S.literal?_relabel, S.kind_relabel]
  cases literal? t with
  | some v => exact S.pure (Expr.literal v)
  | none =>
    by_cases hn : t.kind = .identifier
    · simp only [hn, ↓reduceIte]
      exact S.pure (Expr.reference t)
    · simp only [hn, ↓reduceIte]
      exact S.groupRest hi

theorem primary (hk : Keeps Follows Leaves inner)
    (hi : S.TracksExpr inner) :
    S.TracksExpr (primary inner) := by
  refine (S.takeIf fun k => taken_of_startsPrimary).bind (fun o => ?_) fun o => ?_
  · cases o with
    | none => exact kept_follows.failHere _ _ (by decide)
    | some t => exact kept_follows.primaryFrom hk t
  · cases o with
    | none => exact S.failHere _ _
    | some t => exact S.primaryFrom hi t

theorem equalityLevel (hk : Keeps Follows Leaves inner)
    (hi : S.TracksExpr inner) (fuel : Nat) :
    S.TracksExpr (equalityLevel fuel inner) := by
  have hpk := kept_follows.primary hk
  refine (equalityLevel_induction (P := fun _ x => S.TracksExpr x ∧ Keeps Follows Leaves x)
    ⟨S.prefixed hpk (S.primary hk hi) fuel, kept_follows.prefixed hpk fuel⟩ ?_).1
  rintro b x ⟨hxx, hx⟩
  exact ⟨S.binary hx hxx b fuel, kept_follows.binary hx b fuel⟩

/-- **Every expression goes side by side.** -/
theorem expressionWithin (fuel : Nat) :
    S.TracksExpr (expressionWithin fuel) := by
  induction fuel with
  | zero => exact S.throw_endless
  | succ fuel ih =>
    have hk := kept_follows.expressionWithin fuel
    exact S.assignments (kept_follows.equalityLevel hk _) (S.equalityLevel hk ih _) _

theorem expression : S.TracksExpr Parse.expression := by
  intro s t h
  -- fuel for both of the runs
  have hs : s.cursor.left < max s.cursor.left t.cursor.left + 1 := by omega
  have ht : t.cursor.left < max s.cursor.left t.cursor.left + 1 := by omega
  rw [← expressionWithin_eq hs, ← expressionWithin_eq ht]
  exact S.expressionWithin _ s t h

end Expressions

end Simulation

/-! ### Statements -/

/-- What single changes of the state keep where statements end, and where they are dropped. -/
structure EndingSimulation extends Simulation where
  /-- The first run is at the end of its input, and the second one goes on. -/
  Apart : State → State → Prop
  ended {s t : State} : Near s t →
    (s.cursor.passTerminator? s.depth = none ∧ t.cursor.passTerminator? t.depth = none) ∨
      ∃ c d, s.cursor.passTerminator? s.depth = some c ∧
        t.cursor.passTerminator? t.depth = some d ∧
          (Near (s.moveTo c) (t.moveTo d) ∨ Apart (s.moveTo c) (t.moveTo d) ∨ Lost (s.moveTo c))
  resumed {s t : State} : Near s t →
    Near s.resumed t.resumed ∨ Apart s.resumed t.resumed ∨ Lost s.resumed

/-- What single changes of the state keep where statements and blocks begin and end. -/
structure StatementSimulation extends EndingSimulation where
  brace {s t : State} : Near s t → (s.cursor.kind = .rightBrace ↔ t.cursor.kind = .rightBrace)
  stop {s t : State} : Near s t → (s.cursor.kind = .endOfInput ↔ t.cursor.kind = .endOfInput)
  passed {s t : State} : Near s t → s.cursor.kind = .rightBrace → Near s.next t.next ∨ Lost s.next
  /-- Behind an opening brace line ends are passed over. -/
  entered {s t : State} : Near s t → s.cursor.kind = .leftBrace →
    Near s.next.opened.begun t.next.opened.begun ∨ Apart s.next.opened.begun t.next.opened.begun ∨
      Lost s.next.opened.begun
  closed {s t : State} : Near s t → Near s.closed t.closed
  closed_apart {s t : State} : Apart s t → Apart s.closed t.closed
  closed_lost {s : State} : Lost s → Lost s.closed
  atEnd {s t : State} : Apart s t → s.cursor.kind = .endOfInput
  /-- Inside a block the end of the input is an error that cannot be made undone. -/
  unclosed {s t : State} : Apart s t →
    Lost (s.reported ⟨.token, "Expect '\x7d' after block.", s.cursor.current⟩)

namespace EndingSimulation

open Simulation (Never)

variable (S : EndingSimulation)

/-- Two runs of a statement go side by side. -/
abbrev TracksStmt (x : Action Stmt) : Prop := S.Tracks (Stmt.map S.relabel) S.Apart x x

/-- Two runs of a statement that may be dropped go side by side. -/
abbrev TracksItem (x : Action (Option Stmt)) : Prop :=
  S.Tracks (Option.map (Stmt.map S.relabel)) S.Apart x x

variable {S}

theorem tracked_of_moved {g : α → α} {s t : State} (a : α)
    (h : S.Near s t ∨ S.Apart s t ∨ S.Lost s) :
    S.Tracked g S.Apart (.ok a s) (.ok (g a) t) := by
  rcases h with h | h | h
  · exact .ok h
  · exact .apart h
  · exact .vain (.inr h)

variable (S)

theorem passTerminator : S.Tracks id S.Apart passTerminator passTerminator := by
  intro s t h
  rw [passTerminator_run, passTerminator_run]
  rcases S.ended h with ⟨hs, ht⟩ | ⟨c, d, hs, ht, hm⟩
  · rw [hs, ht]
    exact .ok h
  · rw [hs, ht]
    exact tracked_of_moved (g := id) true hm

theorem resume : S.Tracks id S.Apart resume resume :=
  fun _ _ h => tracked_of_moved (g := id) () (S.resumed h)

theorem requireTerminator (message : String) :
    S.Tracks id S.Apart (requireTerminator message) (requireTerminator message) := by
  intro s t h
  rw [requireTerminator_run, requireTerminator_run]
  rcases S.ended h with ⟨hs, ht⟩ | ⟨c, d, hs, ht, hm⟩
  · rw [hs, ht]
    exact S.failHere _ _ s t h
  · rw [hs, ht]
    exact tracked_of_moved () hm

theorem endedExpression (fuel : Nat) (message : String) :
    S.Tracks (Expr.map S.relabel) S.Apart (endedExpression fuel message)
      (endedExpression fuel message) :=
  (S.expressionWithin fuel).bind (fun _ => kept_follows.bind (kept_follows.requireTerminator _)
    fun _ => kept_follows.pure _) fun _ => (S.requireTerminator message).map fun _ => rfl

theorem initialValue (fuel : Nat) :
    S.Tracks (Option.map (Expr.map S.relabel)) Never (initialValue fuel) (initialValue fuel) := by
  refine (S.take? (by decide)).bind (fun o => ?_) fun o => ?_
  · cases o with
    | none => exact kept_follows.pure none
    | some t => exact kept_follows.bind (kept_follows.expressionWithin fuel) fun _ =>
        kept_follows.pure _
  · cases o with
    | none => exact S.pure none
    | some t => exact (S.expressionWithin fuel).map fun _ => rfl

theorem declarationRest (fuel : Nat) :
    S.TracksStmt (declarationRest fuel) := by
  refine (S.expect (by decide) _).bind (fun _ => ?_) fun name => ?_
  · exact kept_follows.bind (kept_follows.initialValue fuel) fun _ =>
      kept_follows.bind (kept_follows.requireTerminator _) fun _ => kept_follows.pure _
  refine (S.initialValue fuel).bind (fun _ => ?_) fun initial => ?_
  · exact kept_follows.bind (kept_follows.requireTerminator _) fun _ => kept_follows.pure _
  · exact (S.requireTerminator _).map fun _ => rfl

theorem recovering {x : Action Stmt} (hx : S.TracksStmt x) :
    S.TracksItem (recovering x) := by
  intro s t h
  have hxy := hx s t h
  rw [recovering_run, recovering_run]
  generalize x s = r at hxy
  generalize x t = r' at hxy
  cases hxy with
  | @ok a _ _ hn => exact .ok (a := some a) hn
  | @apart a _ _ ha => exact .apart (a := some a) ha
  | error hs hn =>
    cases hs with
    | mismatch m n => exact tracked_of_moved (g := Option.map (Stmt.map S.relabel)) none (S.resumed hn)
    | interrupted => exact .error .interrupted hn
    | endless => exact .error .endless hn
  | vain hv =>
    refine .vain ?_
    rcases hv with ⟨u, rfl⟩ | hl
    · exact .inl ⟨u, rfl⟩
    · cases r with
      | ok a u => exact .inr hl
      | error e u =>
        cases e with
        | mismatch m => exact .inr (S.lost (.resumed u) hl)
        | interrupted => exact .inr hl
        | endless => exact .inr hl

/-- Statements go side by side if those do that begin with a brace. -/
theorem statementOver_of_blockRest {item : Action (Option Stmt)} {fuel : Nat}
    (hblock : ∀ s t, S.Near s t → s.cursor.kind = .leftBrace →
      S.Tracked (Stmt.map S.relabel) S.Apart (blockRest fuel item s.next)
        (blockRest fuel item t.next)) :
    S.TracksStmt (statementOver fuel item) := by
  intro s t h
  have hvar : Taken (.keyword .kVar) := by decide
  have hprint : Taken (.keyword .kPrint) := by decide
  have hbrace : Taken .leftBrace := by decide
  have hended := fun message => kept_follows.endedExpression fuel message
  rw [statementOver_run, statementOver_run]
  simp only [← S.kind_iff h hvar, ← S.kind_iff h hprint, ← S.kind_iff h hbrace]
  split_ifs with hv hp hb
  · exact S.tracked_next (kept_follows.declarationRest fuel) (S.declarationRest fuel)
      (S.next h (hv ▸ hvar))
  · refine S.tracked_next ?_ ?_ (S.next h (hp ▸ hprint))
    · exact kept_follows.bind (hended _) fun _ => kept_follows.pure _
    · exact (S.endedExpression fuel _).map fun _ => rfl
  · exact hblock s t h hb
  · have hexpr : S.Tracks (Stmt.map S.relabel) S.Apart _ _ :=
      (S.endedExpression fuel "Expect ';' or EOL after expression.").map
        (F := Stmt.expression) (G := Stmt.expression) fun _ => rfl
    exact hexpr s t h

end EndingSimulation

namespace StatementSimulation

open Simulation (Never)
open EndingSimulation (tracked_of_moved)

variable (S : StatementSimulation)

/-! ### Blocks -/

section Blocks

variable {item : Action (Option Stmt)}

theorem blockEnd (items : List Stmt) :
    S.Tracks (Stmt.map S.relabel) S.Apart (blockEnd items)
      (blockEnd (Stmt.mapItems S.relabel items)) := by
  intro s t h
  rw [blockEnd_run, blockEnd_run]
  simp only [← S.brace h]
  split_ifs with hb
  · refine S.tracked_next ?_ ?_ (S.passed h hb)
    · exact kept_follows.bind (kept_follows.requireTerminator _) fun _ => kept_follows.pure _
    · exact (S.requireTerminator _).map fun _ => rfl
  · exact S.failHere _ _ s t h

/-- At the end of the input a block lacks its closing brace. -/
theorem blockEnd_vain {s t : State} (h : S.Apart s t) (items : List Stmt) :
    S.Vain (Parse.blockEnd items s) := by
  have hne : s.cursor.kind ≠ .rightBrace := by rw [S.atEnd h]; decide
  rw [blockEnd_run]
  simp only [hne, ↓reduceIte]
  rw [failHere_run, fail_run]
  exact .inr (S.unclosed h)

/-- At the end of the input the statements of a block are over. -/
theorem blockItems_vain (item : Action (Option Stmt)) {s t : State} (h : S.Apart s t)
    (fuel : Nat) : S.Vain (blockItems item fuel s) ∨ blockItems item fuel s = .ok [] s := by
  cases fuel with
  | zero => exact .inl (.inl ⟨s, rfl⟩)
  | succ fuel =>
    have hend := S.atEnd h
    exact .inr (by simp only [blockItems_run, hend, or_true, ↓reduceIte])

/-- The statements of a block go side by side, or the first run comes to the end of its input. -/
theorem blockItems (hk : Keeps Follows Leaves item)
    (hi : S.TracksItem item) (fuel : Nat) {s t : State}
    (h : S.Near s t) :
    S.Tracked (Stmt.mapItems S.relabel) Never (blockItems item fuel s) (blockItems item fuel t) ∨
      ∃ items u v, blockItems item fuel s = .ok items u ∧ S.Apart u v := by
  induction fuel generalizing s t with
  | zero => exact .inl (.error .endless h)
  | succ fuel ih =>
    simp only [blockItems_run, ← S.brace h, ← S.stop h]
    split_ifs with hg
    · exact .inl (.ok (a := []) h)
    have hrest : ∀ o : Option Stmt, Keeps Follows Leaves
        (Parse.blockItems item fuel >>= fun rest => Pure.pure (o.toList ++ rest)) :=
      fun o => kept_follows.bind (kept_follows.blockItems hk fuel) fun _ => kept_follows.pure _
    have ho := hi s t h
    generalize hr : item s = r at ho
    generalize hr' : item t = r' at ho
    cases ho with
    | @ok o u v hn =>
      rw [bind_of_ok hr, bind_of_ok hr']
      rcases ih hn with hb | ⟨items, w, x, hb, hx⟩
      · refine .inl (hb.map fun rest => ?_)
        cases o <;> rfl
      · exact .inr ⟨o.toList ++ items, w, x, by rw [bind_of_ok hb]; rfl, hx⟩
    | error hs hn =>
      rw [bind_of_error hr, bind_of_error hr']
      exact .inl (.error hs hn)
    | @apart o u v ha =>
      -- the first run has no more tokens, so whatever the second one does its block stays open
      rw [bind_of_ok hr]
      rcases S.blockItems_vain item ha fuel with hv | hb
      · exact .inl (.vain (hv.bind fun _ => kept_follows.pure _))
      · exact .inr ⟨o.toList ++ [], u, v, by rw [bind_of_ok hb]; rfl, ha⟩
    | vain hv => exact .inl (.vain ((hr.symm ▸ hv : S.Vain (item s)).bind hrest))

theorem blockBody (hk : Keeps Follows Leaves item)
    (hi : S.TracksItem item) (fuel : Nat) {s t : State}
    (h : S.Near s.begun t.begun ∨ S.Apart s.begun t.begun ∨ S.Lost s.begun) :
    S.Tracked (Stmt.map S.relabel) S.Apart (blockBody fuel item s) (blockBody fuel item t) := by
  have hend : ∀ items, Keeps Follows Leaves (Parse.blockEnd items) :=
    fun items => kept_follows.blockEnd items
  rw [blockBody_run, blockBody_run]
  rcases h with hn | ha | hl
  · rcases S.blockItems hk hi fuel hn with hb | ⟨items, u, v, hb, ha⟩
    · exact hb.bind hend fun items => S.blockEnd items
    · rw [bind_of_ok hb]
      exact .vain (S.blockEnd_vain ha items)
  · refine .vain ?_
    rcases S.blockItems_vain item ha fuel with hv | hb
    · exact hv.bind hend
    · rw [bind_of_ok hb]
      exact S.blockEnd_vain ha []
  · exact .vain (.inr (S.lost ((kept_follows.bind (kept_follows.blockItems hk fuel) hend).final _) hl))

theorem insideBlock {g : α → α} {x : Action α} {s t : State}
    (h : S.Tracked g S.Apart (x s.opened) (x t.opened)) :
    S.Tracked g S.Apart (insideBlock x s) (insideBlock x t) := by
  rw [insideBlock_run, insideBlock_run]
  generalize x s.opened = r at h
  generalize x t.opened = r' at h
  cases h with
  | ok hn => exact .ok (S.closed hn)
  | error hs hn => exact .error hs (S.closed hn)
  | apart ha => exact .apart (S.closed_apart ha)
  | vain hv =>
    refine .vain ?_
    rcases hv with ⟨u, rfl⟩ | hl
    · exact .inl ⟨_, rfl⟩
    · cases r with
      | ok a u => exact .inr (S.closed_lost hl)
      | error e u => exact .inr (S.closed_lost hl)

end Blocks

/-! ### All statements -/

theorem statementOver {item : Action (Option Stmt)} (hk : Keeps Follows Leaves item)
    (hi : S.TracksItem item) (fuel : Nat) : S.TracksStmt (statementOver fuel item) :=
  S.statementOver_of_blockRest fun _ _ h hb =>
    S.insideBlock (S.blockBody hk hi fuel (S.entered h hb))

/-- **Every statement goes side by side.** -/
theorem statementWithin (fuel : Nat) :
    S.TracksItem (statementWithin fuel) := by
  induction fuel with
  | zero => exact S.throw_endless
  | succ fuel ih =>
    exact S.recovering (S.statementOver (kept_follows.statementWithin fuel) ih _)

/-! ### Programs -/

theorem statement (S : StatementSimulation) :
    S.TracksItem Parse.statement := by
  intro s t h
  -- fuel for both of the runs
  have hs : s.cursor.left < max s.cursor.left t.cursor.left + 1 := by omega
  have ht : t.cursor.left < max s.cursor.left t.cursor.left + 1 := by omega
  rw [← statementWithin_eq hs, ← statementWithin_eq ht]
  exact S.statementWithin _ s t h

/-- **The entries of a program go side by side**, until the first run comes to the end of its input. -/
theorem steps {s t u : State} {p : Program} (hp : Steps s p u)
    (h : S.Near s t ∨ S.Apart s t ∨ S.Lost s) (hu : ¬ S.Lost u) :
    ∃ v, Steps t (p.map S.relabel) v ∧ (S.Near u v ∨ S.Apart u v) := by
  induction hp generalizing t with
  | nil s => exact ⟨t, .nil t, h.imp_right fun h => h.resolve_right hu⟩
  | @cons s s' u o p hk ho hp ih =>
    rcases h with hn | ha | hl
    · have hst := S.statement s t hn
      have hkt : t.cursor.kind ≠ .endOfInput := mt (S.stop hn).2 hk
      generalize hr : Parse.statement t = r at hst
      rw [ho] at hst
      cases hst with
      | ok hn' =>
        obtain ⟨v, hv, hend⟩ := ih (.inl hn') hu
        exact ⟨v, .cons hkt hr hv, hend⟩
      | apart ha' =>
        obtain ⟨v, hv, hend⟩ := ih (.inr (.inl ha')) hu
        exact ⟨v, .cons hkt hr hv, hend⟩
      | vain hv =>
        rcases hv with ⟨w, hw⟩ | hl
        · cases hw
        · exact absurd (S.lost hp.follows hl) hu
    · exact absurd (S.atEnd ha) hk
    · exact absurd (S.lost ((kept_follows.statement.ok ho).trans hp.follows) hl) hu

end StatementSimulation

end Parse

end LoxFront
