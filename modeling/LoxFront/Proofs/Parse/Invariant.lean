import LoxFront.Proofs.Parse.Step

/-!
# What every run keeps

`KeptInside R E` says that the few changes of the state that a statement without blocks is made of
keep the relation `R` between the states before and after, and the relation `E` when they leave
early.  Then every expression keeps them (`KeptInside.expressionWithin`).  `Kept R E` says so of
recovery and of blocks too, and then every statement keeps them (`Kept.statementWithin`).
`KeptThroughout R E` says so of the end of a program too, and then every program keeps them
(`KeptThroughout.program`).

The first use is `Follows`: a run moves the cursor forward, leaves the number of open blocks and the
hook as they were, and only adds to the errors.  It leaves early for a mismatch only after recording
it, and is interrupted only by the hook.
-/

namespace LoxFront.Parse

variable {α β : Type}

/-- The changes of the state inside of a statement without blocks keep `R`, or `E` when they leave
early.  An error is recorded at the token under the cursor, except that a rejected assignment is
recorded at its equals sign, once the value behind that has been read. -/
structure KeptInside (R : State → State → Prop) (E : State → Exit → State → Prop) : Prop where
  refl (s : State) : R s s
  trans {s t u : State} : R s t → R t u → R s u
  next (s : State) : s.cursor.kind ≠ .endOfInput → R s s.next
  rejected {s t : State} : s.cursor.kind = .equal → R s.next t → t.hookStops = false →
    R s (t.reported (.invalidAssignment s.cursor.current))
  after {s t u : State} {e : Exit} : R s t → E t e u → E s e u
  failed (rule : Rule) (message : String) (s : State) : rule ≠ .assignment →
    E s (if s.hookStops then .interrupted else .mismatch ⟨rule, message, s.cursor.current⟩)
      (s.reported ⟨rule, message, s.cursor.current⟩)
  stopped {s t : State} : s.cursor.kind = .equal → R s.next t → t.hookStops = true →
    E s .interrupted (t.reported (.invalidAssignment s.cursor.current))
  endless (s : State) : E s .endless s

/-- The changes of the state keep `R`, or `E` when they leave early, also where a statement with an
error is dropped and where a block begins and ends. -/
structure Kept (R : State → State → Prop) (E : State → Exit → State → Prop) : Prop
    extends KeptInside R E where
  recover {s t : State} {m : Mismatch} : E s (.mismatch m) t → R s t.resumed
  block {s t : State} : R s.opened t → R s t.closed
  blockExit {s t : State} {e : Exit} : E s.opened e t → E s e t.closed

/-- A step keeps `R`, or `E` when it leaves early. -/
def Keeps (R : State → State → Prop) (E : State → Exit → State → Prop) (x : Action α) : Prop :=
  ∀ s, match x s with
    | .ok _ t => R s t
    | .error e t => E s e t

variable {R : State → State → Prop} {E : State → Exit → State → Prop}

theorem Keeps.ok {x : Action α} (h : Keeps R E x) {s t : State} {a : α} (hx : x s = .ok a t) :
    R s t := by
  have := h s
  rwa [hx] at this

theorem Keeps.error {x : Action α} (h : Keeps R E x) {s t : State} {e : Exit}
    (hx : x s = .error e t) : E s e t := by
  have := h s
  rwa [hx] at this

/-- The state in which a step ends. -/
def final : EStateM.Result Exit State α → State
  | .ok _ s => s
  | .error _ s => s

theorem keeps_of {x : Action α} (hok : ∀ s a t, x s = .ok a t → R s t)
    (herr : ∀ s e t, x s = .error e t → E s e t) : Keeps R E x := by
  intro s
  cases hx : x s with
  | ok a t => exact hok s a t hx
  | error e t => exact herr s e t hx

namespace KeptInside

variable (h : KeptInside R E)
include h

/-! ### Single steps -/

theorem moveTo {c : Cursor} (s : State) (hc : s.cursor.Leads c) : R s (s.moveTo c) := by
  generalize hd : s.cursor = d at hc
  -- a longer way is made of single steps, each of which takes the token under the cursor
  induction hc generalizing s with
  | refl c =>
    have : s.moveTo c = s := by rw [← hd]; rfl
    rw [this]
    exact h.refl s
  | step hk _ ih =>
    subst hd
    exact h.trans (h.next s hk) (ih s.next rfl)

theorem pure (a : α) : Keeps R E (pure a : Action α) := fun s => h.refl s

theorem throw_endless : Keeps R E (throw .endless : Action α) := fun s => h.endless s

theorem bind {x : Action α} {f : α → Action β} (hx : Keeps R E x) (hf : ∀ a, Keeps R E (f a)) :
    Keeps R E (x >>= f) := by
  refine keeps_of (fun s b u hb => ?_) fun s e u he => ?_
  · obtain ⟨a, t, ha, hb⟩ := bind_ok.1 hb
    exact h.trans (hx.ok ha) ((hf a).ok hb)
  · rcases bind_error.1 he with he | ⟨a, t, ha, he⟩
    · exact hx.error he
    · exact h.after (hx.ok ha) ((hf a).error he)

/-- What comes behind a run that keeps `R`. -/
theorem behind {x : Action α} (hx : Keeps R E x) {s t : State} (ht : R s t) :
    (∀ a u, x t = .ok a u → R s u) ∧ ∀ e u, x t = .error e u → E s e u :=
  ⟨fun _ _ hu => h.trans ht (hx.ok hu), fun _ _ hu => h.after ht (hx.error hu)⟩

theorem failHere (rule : Rule) (message : String) (hr : rule ≠ .assignment) :
    Keeps R E (failHere rule message : Action α) := by
  intro s
  rw [failHere_run, fail_run]
  exact h.failed rule message s hr

theorem takeIf (test : Kind → Bool) : Keeps R E (takeIf test) := by
  intro s
  rw [takeIf_run]
  split <;> rename_i hs
  · split at hs
    · rename_i hk
      cases hs
      exact h.next s hk.1
    · cases hs
      exact h.refl s
  · split at hs <;> cases hs

theorem expect (kind : Kind) (message : String) : Keeps R E (expect kind message) :=
  h.bind (h.takeIf _) fun o => by
    cases o with
    | none => exact h.failHere _ _ (by decide)
    | some t => exact h.pure t

theorem skipLines : Keeps R E skipLines := fun s => h.moveTo s (.skipLines _)

theorem requireTerminator (message : String) : Keeps R E (requireTerminator message) := by
  intro s
  rw [requireTerminator_run]
  cases hc : s.cursor.passTerminator? s.depth with
  | none => exact h.failHere _ _ (by decide) s
  | some c => exact h.moveTo s (.passTerminator hc)

/-! ### Expressions -/

theorem chain {operand : Action Expr} (ho : Keeps R E operand) (level : BinaryLevel) (fuel : Nat)
    (left : Expr) : Keeps R E (chain level operand fuel left) := by
  induction fuel generalizing left with
  | zero => exact h.throw_endless
  | succ fuel ih =>
    refine h.bind (h.takeIf _) fun o => ?_
    cases o with
    | none => exact h.pure left
    | some t => exact h.bind ho fun right => ih _

theorem binary {operand : Action Expr} (ho : Keeps R E operand) (level : BinaryLevel)
    (fuel : Nat) : Keeps R E (binary level fuel operand) :=
  h.bind ho fun left => h.chain ho level fuel left

theorem prefixed {operand : Action Expr} (ho : Keeps R E operand) (fuel : Nat) :
    Keeps R E (prefixed operand fuel) := by
  induction fuel with
  | zero => exact h.throw_endless
  | succ fuel ih =>
    refine h.bind (h.takeIf _) fun o => ?_
    cases o with
    | none => exact ho
    | some t => exact h.bind ih fun right => h.pure _

theorem assignmentRest {value : Action Expr} (hv : Keeps R E value) (target : Expr) :
    Keeps R E (assignmentRest target value) := by
  intro s
  have htake := take?_run .equal (by decide) s
  rw [Parse.assignmentRest]
  by_cases hs : s.cursor.kind = .equal
  · rw [if_pos hs] at htake
    rw [bind_of_ok htake]
    have hnext : R s s.next := h.next s (by rw [hs]; decide)
    dsimp only
    cases hx : value s.next with
    | ok v t =>
      have ht := hv.ok hx
      rw [bind_of_ok hx]
      rcases assignTo_run target s.cursor.current v t with ⟨name, -, hrun⟩ | hrun
      · rw [hrun]
        exact h.trans hnext ht
      · rw [hrun]
        cases hh : t.hookStops
        · exact h.rejected hs ht hh
        · exact h.stopped hs ht hh
    | error e t =>
      rw [bind_of_error hx]
      exact h.after hnext (hv.error hx)
  · rw [if_neg hs] at htake
    rw [bind_of_ok htake]
    exact h.refl s

theorem assignments {operand : Action Expr} (ho : Keeps R E operand) (fuel : Nat) :
    Keeps R E (assignments operand fuel) := by
  induction fuel with
  | zero => exact h.throw_endless
  | succ fuel ih => exact h.bind ho fun target => h.assignmentRest ih target

theorem groupRest {inner : Action Expr} (hi : Keeps R E inner) : Keeps R E (groupRest inner) :=
  h.bind hi fun _ => h.bind (h.expect _ _) fun _ => h.pure _

theorem primaryFrom {inner : Action Expr} (hi : Keeps R E inner) (t : Token) :
    Keeps R E (primaryFrom inner t) := by
  unfold Parse.primaryFrom
  split
  · exact h.pure _
  · split
    · exact h.pure _
    · exact h.groupRest hi

theorem primary {inner : Action Expr} (hi : Keeps R E inner) : Keeps R E (primary inner) := by
  refine h.bind (h.takeIf _) fun o => ?_
  cases o with
  | none => exact h.failHere _ _ (by decide)
  | some t => exact h.primaryFrom hi t

theorem equalityLevel {inner : Action Expr} (hi : Keeps R E inner) (fuel : Nat) :
    Keeps R E (equalityLevel fuel inner) :=
  equalityLevel_induction (P := fun _ x => Keeps R E x) (h.prefixed (h.primary hi) fuel)
    fun b _ hx => h.binary hx b fuel

/-- **Every expression keeps what its steps keep.** -/
theorem expressionWithin (fuel : Nat) : Keeps R E (expressionWithin fuel) := by
  induction fuel with
  | zero => exact h.throw_endless
  | succ fuel ih => exact h.assignments (h.equalityLevel ih _) _

/-! ### Statements -/

theorem endedExpression (fuel : Nat) (message : String) :
    Keeps R E (endedExpression fuel message) :=
  h.bind (h.expressionWithin fuel) fun e => h.bind (h.requireTerminator _) fun _ => h.pure e

theorem initialValue (fuel : Nat) : Keeps R E (initialValue fuel) := by
  refine h.bind (h.takeIf _) fun o => ?_
  cases o with
  | none => exact h.pure _
  | some t => exact h.bind (h.expressionWithin fuel) fun e => h.pure _

theorem declarationRest (fuel : Nat) : Keeps R E (declarationRest fuel) :=
  h.bind (h.expect _ _) fun _ => h.bind (h.initialValue fuel) fun _ =>
    h.bind (h.requireTerminator _) fun _ => h.pure _

theorem blockEnd (items : List Stmt) : Keeps R E (blockEnd items) :=
  h.bind (h.expect _ _) fun _ => h.bind (h.requireTerminator _) fun _ => h.pure _

theorem statementOver_of_blockRest {item : Action (Option Stmt)} {fuel : Nat}
    (hb : Keeps R E (blockRest fuel item)) : Keeps R E (statementOver fuel item) := by
  refine h.bind (h.takeIf _) fun o => ?_
  cases o with
  | some t => exact h.declarationRest fuel
  | none =>
    refine h.bind (h.takeIf _) fun o => ?_
    cases o with
    | some t => exact h.bind (h.endedExpression fuel _) fun e => h.pure _
    | none =>
      refine h.bind (h.takeIf _) fun o => ?_
      cases o with
      | some t => exact hb
      | none => exact h.bind (h.endedExpression fuel _) fun e => h.pure _

/-- A statement that is no block keeps what its steps keep. -/
theorem statementOver_of_ne_brace (fuel : Nat) (item : Action (Option Stmt)) {s : State}
    (hs : s.cursor.kind ≠ .leftBrace) :
    (∀ a t, statementOver fuel item s = .ok a t → R s t) ∧
      ∀ e t, statementOver fuel item s = .error e t → E s e t := by
  have hended := fun message => h.endedExpression fuel message
  rw [statementOver_run]
  split_ifs with hv hp
  · exact h.behind (h.declarationRest fuel) (h.next s (by rw [hv]; decide))
  · refine h.behind ?_ (h.next s (by rw [hp]; decide))
    exact h.bind (hended _) fun e => h.pure _
  · exact h.behind (h.bind (hended _) fun e => h.pure _) (h.refl s)

end KeptInside

namespace Kept

variable (h : Kept R E)
include h

theorem insideBlock {x : Action α} (hx : Keeps R E x) : Keeps R E (insideBlock x) := by
  intro s
  rw [insideBlock_run]
  cases ho : x s.opened with
  | ok a t => exact h.block (hx.ok ho)
  | error e t => exact h.blockExit (hx.error ho)

theorem blockItems {item : Action (Option Stmt)} (hi : Keeps R E item) (fuel : Nat) :
    Keeps R E (blockItems item fuel) := by
  induction fuel with
  | zero => exact h.throw_endless
  | succ fuel ih =>
    have hget : Keeps R E (get : Action State) := fun s => h.refl s
    refine h.bind hget fun s => ?_
    -- which way it goes depends on the state, but both ways keep what their steps keep
    dsimp only
    split
    · exact h.pure _
    · exact h.bind hi fun o => h.bind ih fun rest => h.pure _

theorem blockBody {item : Action (Option Stmt)} (hi : Keeps R E item) (fuel : Nat) :
    Keeps R E (blockBody fuel item) :=
  h.bind h.skipLines fun _ => h.bind (h.blockItems hi fuel) fun items => h.blockEnd items

theorem blockRest {item : Action (Option Stmt)} (hi : Keeps R E item) (fuel : Nat) :
    Keeps R E (blockRest fuel item) :=
  h.insideBlock (h.blockBody hi fuel)

theorem recovering {x : Action Stmt} (hx : Keeps R E x) : Keeps R E (recovering x) := by
  intro s
  rw [recovering_run]
  cases ho : x s with
  | ok a t => exact hx.ok ho
  | error e t =>
    cases e with
    | mismatch m => exact h.recover (hx.error ho)
    | interrupted => exact hx.error ho
    | endless => exact hx.error ho

theorem statementOver {item : Action (Option Stmt)} (hi : Keeps R E item) (fuel : Nat) :
    Keeps R E (statementOver fuel item) :=
  h.statementOver_of_blockRest (h.blockRest hi fuel)

/-- **Every statement keeps what its steps keep.** -/
theorem statementWithin (fuel : Nat) : Keeps R E (statementWithin fuel) := by
  induction fuel with
  | zero => exact h.throw_endless
  | succ fuel ih => exact h.recovering (h.statementOver ih _)

theorem statement : Keeps R E statement := fun s => h.statementWithin _ s

end Kept

/-! ### Programs -/

/-- The changes of the state keep `R`, or `E` when they leave early, also where a program ends. -/
structure KeptThroughout (R : State → State → Prop) (E : State → Exit → State → Prop) : Prop
    extends Kept R E where
  spent (s : State) : R s s.stopped
  finished (entries errors : Nat) (s : State) : R s (s.note (.finished entries errors))

namespace KeptThroughout

variable (h : KeptThroughout R E)
include h

/-- What the statements keep is kept by any number of rounds. -/
theorem entries (budget fuel : Nat) : Keeps R E (entries budget fuel) := by
  induction fuel with
  | zero => exact h.throw_endless
  | succ fuel ih =>
    intro s
    rw [entries_run]
    split_ifs with hk
    · exact h.refl s
    cases ho : Parse.statement s with
    | error e t => exact h.statement.error ho
    | ok o t =>
      have ht := h.statement.ok ho
      dsimp only
      split_ifs with hb
      · exact h.trans ht (h.spent t)
      · obtain ⟨hok, herr⟩ := h.behind (h.bind ih fun rest => h.pure (o :: rest)) ht
        cases hr : (Parse.entries budget fuel >>= fun rest => Pure.pure (o :: rest)) t with
        | ok p u => exact hok p u hr
        | error e u => exact herr e u hr

/-- **Every program keeps what its steps keep.** -/
theorem program (budget : Nat) : Keeps R E (program budget) := by
  intro s
  have hbegun := h.skipLines.ok (skipLines_run s)
  obtain ⟨hok, herr⟩ := h.behind (h.entries budget (s.begun.rounds budget)) hbegun
  rw [program_run]
  cases hp : Parse.entries budget (s.begun.rounds budget) s.begun with
  | error e t => exact herr e t hp
  | ok p t => exact h.trans (hok p t hp) (h.finished _ _ t)

end KeptThroughout

/-! ### Forward, balanced and cumulative -/

/-- What is true of the states before and after every run. -/
structure Follows (s t : State) : Prop where
  leads : s.cursor.Leads t.cursor
  depth : t.depth = s.depth
  hook : t.hook = s.hook
  events : s.events <+: t.events

/-- What is true moreover of a run that leaves early. -/
structure Leaves (s : State) (e : Exit) (t : State) : Prop extends Follows s t where
  /-- A mismatch was recorded last of all. -/
  recorded : ∀ m, e = .mismatch m → ∃ l, t.events = s.events ++ l ++ [.reported m]
  /-- Only the hook interrupts. -/
  interrupts : e = .interrupted → s.hook.interrupts ≠ []

theorem Follows.refl (s : State) : Follows s s :=
  ⟨.refl _, rfl, rfl, List.prefix_rfl⟩

theorem Follows.trans {s t u : State} (h : Follows s t) (h' : Follows t u) : Follows s u :=
  ⟨h.leads.trans h'.leads, h'.depth.trans h.depth, h'.hook.trans h.hook, h.events.trans h'.events⟩

/-- Errors are only added. -/
theorem Follows.mismatches {s t : State} (h : Follows s t) : s.mismatches <+: t.mismatches := by
  obtain ⟨l, hl⟩ := h.events
  refine ⟨l.filterMap Event.mismatch?, ?_⟩
  rw [State.mismatches, State.mismatches, ← hl, List.filterMap_append]

theorem Follows.reported (m : Mismatch) (s : State) : Follows s (s.reported m) :=
  ⟨.refl _, rfl, rfl, List.prefix_append _ _⟩

theorem Follows.resumed (s : State) : Follows s s.resumed :=
  ⟨.resume _ _, rfl, rfl, List.prefix_append _ _⟩

theorem Follows.block {s t : State} (h : Follows s.opened t) : Follows s t.closed := by
  refine ⟨h.leads, ?_, h.hook, h.events⟩
  have : t.depth = s.depth + 1 := h.depth
  simp only [State.closed]
  omega

theorem Leaves.after {s t u : State} {e : Exit} (h : Follows s t) (h' : Leaves t e u) :
    Leaves s e u := by
  refine ⟨h.trans h'.toFollows, fun m hm => ?_, fun he => h.hook ▸ h'.interrupts he⟩
  obtain ⟨l, hl⟩ := h'.recorded m hm
  obtain ⟨k, hk⟩ := h.events
  exact ⟨k ++ l, by rw [hl, ← hk, List.append_assoc s.events]⟩

theorem Leaves.mismatch (m : Mismatch) (s : State) : Leaves s (.mismatch m) (s.reported m) := by
  refine ⟨.reported m s, fun m' hm => ⟨[], ?_⟩, fun h => (by cases h)⟩
  injection hm with hm
  rw [List.append_nil, ← hm]
  rfl

theorem Leaves.interrupted (m : Mismatch) {s : State} (hs : s.hookStops = true) :
    Leaves s .interrupted (s.reported m) := by
  refine ⟨.reported m s, fun _ h => (by cases h), fun _ hn => ?_⟩
  simp [State.hookStops, hn] at hs

theorem Leaves.endless (s : State) : Leaves s .endless s :=
  ⟨.refl s, fun _ h => (by cases h), fun h => (by cases h)⟩

theorem Keeps.final {x : Action α} (h : Keeps Follows Leaves x) (s : State) :
    Follows s (final (x s)) := by
  cases hx : x s with
  | ok a t => exact h.ok hx
  | error e t => exact (h.error hx).toFollows

/-- An error that is recorded, and one that is the end of the work unless the hook is. -/
theorem Leaves.failed (m : Mismatch) (s : State) :
    Leaves s (if s.hookStops then .interrupted else .mismatch m) (s.reported m) := by
  cases hs : s.hookStops
  · exact .mismatch m s
  · exact .interrupted m hs

theorem report_follows (m : Mismatch) : Keeps Follows Leaves (report m) := by
  intro s
  rw [report_run]
  cases hs : s.hookStops
  · exact .reported m s
  · exact .interrupted m hs

theorem assignTo_follows (target : Expr) (equals : Token) (value : Expr) :
    Keeps Follows Leaves (assignTo target equals value) := by
  intro s
  rcases assignTo_run target equals value s with ⟨name, -, hrun⟩ | hrun
  · rw [hrun]
    exact .refl s
  · rw [hrun]
    cases hs : s.hookStops
    · exact .reported _ s
    · exact .interrupted _ hs

theorem Follows.next (s : State) : Follows s s.next :=
  ⟨.advance _, rfl, rfl, List.prefix_rfl⟩

/-- **What follows every run**, and what holds when one leaves early. -/
theorem kept_follows : Kept Follows Leaves where
  refl := .refl
  trans := .trans
  next s _ := .next s
  rejected _ h _ := ((Follows.next _).trans h).trans (.reported _ _)
  after := .after
  failed _ _ s _ := .failed _ s
  stopped _ h hs := .after ((Follows.next _).trans h) (.interrupted _ hs)
  endless := .endless
  recover h := h.toFollows.trans (.resumed _)
  block := .block
  blockExit h := ⟨h.toFollows.block, h.recorded, h.interrupts⟩

/-- **What follows every program.** -/
theorem keptThroughout_follows : KeptThroughout Follows Leaves where
  toKept := kept_follows
  spent _ := ⟨.refl _, rfl, rfl, List.prefix_append _ _⟩
  finished _ _ _ := ⟨.refl _, rfl, rfl, List.prefix_append _ _⟩

end LoxFront.Parse
