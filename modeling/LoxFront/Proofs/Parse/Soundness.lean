import LoxFront.Proofs.Grammar
import LoxFront.Proofs.Parse.Rounds

/-!
# What is read without an error fits the grammar

A run is quiet if it records no error.  In a quiet run each level of expressions reads tokens that the
grammar derives at this level (`expressionWithin_reads`), and statements, blocks and programs read
declarations (`statementWithin_reads`, `program_reads`).

Behind its closing brace a block looks for its end while it still counts as open, so at the outermost
level it takes a closing brace for an end that the grammar does not have there.  What comes next is
then no declaration, so a quiet run never gets into this (`Precedes`).
-/

namespace LoxFront.Parse

open Grammar

variable {α β : Type}

/-! ### Quiet runs -/

/-- A run from one state to the other records no error. -/
def Quiet (s t : State) : Prop := t.mismatches = s.mismatches

theorem Quiet.split {s t u : State} (h : Quiet s u) (hst : Follows s t) (htu : Follows t u) :
    Quiet s t ∧ Quiet t u := by
  have hlen : u.mismatches.length = s.mismatches.length := congrArg List.length h
  have h1 := hst.mismatches.length_le
  have h2 := htu.mismatches.length_le
  exact ⟨(hst.mismatches.eq_of_length (by omega)).symm,
    (htu.mismatches.eq_of_length (by omega)).symm⟩

/-- A quiet run of two steps is quiet in both of them. -/
theorem quiet_bind {x : Action α} {f : α → Action β} (hx : Keeps Follows Leaves x)
    (hf : ∀ a, Keeps Follows Leaves (f a)) {s u : State} {b : β} (h : (x >>= f) s = .ok b u)
    (hq : Quiet s u) :
    ∃ a t, x s = .ok a t ∧ Quiet s t ∧ f a t = .ok b u ∧ Quiet t u := by
  obtain ⟨a, t, ha, hb⟩ := bind_ok.1 h
  obtain ⟨h1, h2⟩ := hq.split (hx.ok ha) ((hf a).ok hb)
  exact ⟨a, t, ha, h1, hb, h2⟩

theorem not_quiet_reported (m : Mismatch) (s : State) : ¬ Quiet s (s.reported m) := by
  intro h
  simp [Quiet] at h

/-- A run that gives up after a mismatch is not quiet. -/
theorem Leaves.not_quiet {s t : State} {m : Mismatch} (h : Leaves s (.mismatch m) t) :
    ¬ Quiet s t := by
  intro hq
  obtain ⟨l, hl⟩ := h.recorded m rfl
  have := congrArg List.length hq
  simp [State.mismatches, hl, Event.mismatch?] at this

/-! ### Expressions -/

/-- In quiet runs the tokens that a step takes and its value are related. -/
def Reads (x : Action Expr) (D : List Token → Expr → Prop) : Prop :=
  ∀ s e t, x s = .ok e t → Quiet s t → ∃ ts, s.cursor.rest = ts ++ t.cursor.rest ∧ D ts e

theorem rest_next {s : State} (h : s.cursor.kind ≠ .endOfInput) :
    s.cursor.rest = s.cursor.current :: s.next.cursor.rest := (Cursor.rest_advance h).1

theorem failHere_ne_ok (rule : Rule) (message : String) (s t : State) (a : α) :
    failHere rule message s ≠ .ok a t := by
  rw [failHere_run, fail_run]
  intro h
  cases h

theorem expect_ok {kind : Kind} {message : String} {s t : State} {tok : Token}
    (h : expect kind message s = .ok tok t) :
    s.cursor.rest = tok :: t.cursor.rest ∧ tok.kind = kind ∧ t = s.next := by
  rw [expect_run] at h
  split at h
  · rename_i hk
    cases h
    exact ⟨rest_next hk.1, hk.2, rfl⟩
  · exact absurd h (failHere_ne_ok _ _ _ _ _)

theorem hasOperator_iff {b : BinaryLevel} {k : Kind} : b.hasOperator k = true ↔ Joins b k := by
  constructor
  · intro h
    cases b <;> cases k <;> first | constructor | cases h
  · intro h
    cases h <;> rfl

theorem isPrefixOperator_iff {k : Kind} : isPrefixOperator k = true ↔ Negates k := by
  constructor
  · intro h
    cases k <;> first | constructor | cases h
  · intro h
    cases h <;> rfl

theorem literal?_eq_some {t : Token} {v : Literal} : literal? t = some v ↔ Denotes t v := by
  constructor
  · intro h
    unfold literal? at h
    split at h <;> cases h
    · exact .isFalse ‹_›
    · exact .isTrue ‹_›
    · exact .isNil ‹_›
    · exact .number ‹_›
    · exact .string ‹_›
  · intro h
    cases h <;> simp [literal?, *]

theorem startsPrimary_of_denotes {t : Token} {v : Literal} (h : Denotes t v) :
    startsPrimary t.kind = true := by
  cases h <;> simp [startsPrimary, *]

theorem starts_of_begins {k : Kind} (h : Begins k) :
    startsPrimary k = true ∨ isPrefixOperator k = true := by
  cases h with
  | name => exact .inl rfl
  | paren => exact .inl rfl
  | negation h => exact .inr (isPrefixOperator_iff.2 h)
  | literal h => exact .inl (startsPrimary_of_denotes h)

/-- No declaration begins with a line end, a closing brace, or the end of the input. -/
theorem not_opens {k : Kind} (hk : k = .endOfLine ∨ k = .rightBrace ∨ k = .endOfInput) :
    ¬ Opens k := by
  rintro (h | h | h | h)
  · simp [h] at hk
  · simp [h] at hk
  · simp [h] at hk
  · have := starts_of_begins h
    rcases hk with rfl | rfl | rfl <;> simp [startsPrimary, isPrefixOperator] at this

/-- What begins a primary expression and is neither a literal nor a name is a parenthesis. -/
theorem leftParen_of_startsPrimary {t : Token} (h : startsPrimary t.kind = true)
    (hv : literal? t = none) (hn : t.kind ≠ .identifier) : t.kind = .leftParen := by
  unfold startsPrimary at h
  split at h <;> simp_all [literal?]

section Levels

variable {operand inner : Action Expr}

/-- What a primary expression can be, by the token that it begins with. -/
theorem primaryFrom_ok {tok : Token} {s t : State} {e : Expr}
    (h : primaryFrom inner tok s = .ok e t) :
    (∃ v, literal? tok = some v ∧ e = .literal v ∧ t = s) ∨
      (tok.kind = .identifier ∧ e = .reference tok ∧ t = s) ∨
        literal? tok = none ∧ tok.kind ≠ .identifier ∧ groupRest inner s = .ok e t := by
  unfold primaryFrom at h
  cases hv : literal? tok with
  | some v =>
    rw [hv] at h
    cases h
    exact .inl ⟨v, rfl, rfl, rfl⟩
  | none =>
    simp only [hv] at h
    by_cases hn : tok.kind = .identifier
    · simp only [hn, ↓reduceIte] at h
      cases h
      exact .inr (.inl ⟨hn, rfl, rfl⟩)
    · simp only [hn, ↓reduceIte] at h
      exact .inr (.inr ⟨rfl, hn, h⟩)

theorem primary_reads (hk : Keeps Follows Leaves inner) (hi : Reads inner (Derives .assignment)) :
    Reads (primary inner) (Derives .primary) := by
  intro s e t h hq
  obtain ⟨o, u, ho, -, hr, hqr⟩ := quiet_bind (kept_follows.takeIf _) (fun o => by
    cases o with
    | none => exact kept_follows.failHere _ _ (by decide)
    | some tok => exact kept_follows.primaryFrom hk tok) h hq
  cases o with
  | none => exact absurd hr (failHere_ne_ok _ _ _ _ _)
  | some tok =>
    obtain ⟨⟨hend, hstart⟩, rfl, rfl⟩ := takeIf_some.1 ho
    have hrest := rest_next hend
    rcases primaryFrom_ok hr with ⟨v, hv, rfl, rfl⟩ | ⟨hn, rfl, rfl⟩ | ⟨hv, hn, hr⟩
    · exact ⟨_, hrest, .literal (literal?_eq_some.1 hv)⟩
    · exact ⟨_, hrest, .reference hn⟩
    · obtain ⟨f, v, hf, hqf, hr, hqr⟩ := quiet_bind hk (fun _ => kept_follows.bind
        (kept_follows.expect _ _) fun _ => kept_follows.pure _) hr hqr
      obtain ⟨r, w, hx, hw⟩ := bind_ok.1 hr
      cases hw
      obtain ⟨ts, hts, hd⟩ := hi _ _ _ hf hqf
      obtain ⟨hv', hrk, -⟩ := expect_ok hx
      refine ⟨s.cursor.current :: (ts ++ [r]), ?_,
        .group (leftParen_of_startsPrimary hstart hv hn) hd hrk⟩
      rw [hrest, hts, hv']
      simp

theorem prefixed_reads (ho : Reads operand (Derives .primary)) (fuel : Nat) :
    Reads (prefixed operand fuel) (Derives .unary) := by
  induction fuel with
  | zero => exact fun s e t h => by cases h
  | succ fuel ih =>
    intro s e t h hq
    obtain ⟨o, u, hto, hr⟩ := bind_ok.1 h
    cases o with
    | none =>
      obtain ⟨-, rfl⟩ := takeIf_none.1 hto
      obtain ⟨ts, hts, hd⟩ := ho s e t hr hq
      exact ⟨ts, hts, .primary hd⟩
    | some tok =>
      obtain ⟨⟨hend, hop⟩, rfl, rfl⟩ := takeIf_some.1 hto
      obtain ⟨f, v, hf, hv⟩ := bind_ok.1 hr
      cases hv
      obtain ⟨ts, hts, hd⟩ := ih s.next f t hf hq
      refine ⟨s.cursor.current :: ts, ?_, .unary (isPrefixOperator_iff.1 hop) hd⟩
      rw [rest_next hend, hts, List.cons_append]

/-- A chain goes on with what has been read as its left part. -/
theorem chain_reads {b : BinaryLevel} (hk : Keeps Follows Leaves operand)
    (ho : Reads operand (Derives (tighter b))) (fuel : Nat) {ts₀ : List Token} {left : Expr}
    (hleft : Derives (.binary b) ts₀ left) :
    Reads (chain b operand fuel left) fun ts e => Derives (.binary b) (ts₀ ++ ts) e := by
  induction fuel generalizing ts₀ left with
  | zero => exact fun s e t h => by cases h
  | succ fuel ih =>
    intro s e t h hq
    obtain ⟨o, u, hto, hr⟩ := bind_ok.1 h
    cases o with
    | none =>
      obtain ⟨-, rfl⟩ := takeIf_none.1 hto
      cases hr
      exact ⟨[], rfl, by simpa using hleft⟩
    | some tok =>
      obtain ⟨⟨hend, hop⟩, rfl, rfl⟩ := takeIf_some.1 hto
      obtain ⟨right, v, hright, hqv, hr, hqr⟩ := quiet_bind hk
        (fun _ => kept_follows.chain hk b fuel _) hr hq
      obtain ⟨us, hus, hd⟩ := ho _ _ _ hright hqv
      obtain ⟨vs, hvs, hd'⟩ := ih (.operator hleft (hasOperator_iff.1 hop) hd) _ _ _ hr hqr
      refine ⟨s.cursor.current :: (us ++ vs), ?_, ?_⟩
      · rw [rest_next hend, hus, hvs, List.cons_append, List.append_assoc]
      · rwa [List.append_assoc] at hd'

theorem binary_reads {b : BinaryLevel} (hk : Keeps Follows Leaves operand)
    (ho : Reads operand (Derives (tighter b))) (fuel : Nat) :
    Reads (binary b fuel operand) (Derives (.binary b)) := by
  intro s e t h hq
  obtain ⟨left, u, hleft, hqu, hr, hqr⟩ := quiet_bind hk
    (fun _ => kept_follows.chain hk b fuel _) h hq
  obtain ⟨ts, hts, hd⟩ := ho _ _ _ hleft hqu
  obtain ⟨us, hus, hd'⟩ := chain_reads hk ho fuel (.operand hd) _ _ _ hr hqr
  exact ⟨ts ++ us, by rw [hts, hus, List.append_assoc], hd'⟩

theorem equalityLevel_reads (hk : Keeps Follows Leaves inner)
    (hi : Reads inner (Derives .assignment)) (fuel : Nat) :
    Reads (equalityLevel fuel inner) (Derives (.binary .equality)) := by
  have hpk := kept_follows.primary hk
  refine (equalityLevel_induction (P := fun l x => Reads x (Derives l) ∧ Keeps Follows Leaves x)
    ⟨prefixed_reads (primary_reads hk hi) fuel, kept_follows.prefixed hpk fuel⟩ ?_).1
  rintro b x ⟨hr, hx⟩
  exact ⟨binary_reads hx hr fuel, kept_follows.binary hx b fuel⟩

theorem assignments_reads (hk : Keeps Follows Leaves operand)
    (ho : Reads operand (Derives (.binary .equality))) (fuel : Nat) :
    Reads (assignments operand fuel) (Derives .assignment) := by
  induction fuel with
  | zero => exact fun s e t h => by cases h
  | succ fuel ih =>
    intro s e t h hq
    obtain ⟨target, u, htarget, hqu, hr, hqr⟩ := quiet_bind hk
      (fun _ => kept_follows.assignmentRest (kept_follows.assignments hk fuel) _) h hq
    obtain ⟨ts, hts, hd⟩ := ho _ _ _ htarget hqu
    obtain ⟨o, v, hto, hr⟩ := bind_ok.1 hr
    cases o with
    | none =>
      obtain ⟨-, rfl⟩ := takeIf_none.1 hto
      cases hr
      exact ⟨ts, hts, .equality hd⟩
    | some equals =>
      obtain ⟨⟨hend, hop⟩, rfl, rfl⟩ := takeIf_some.1 hto
      obtain ⟨value, w, hvalue, hqw, hr, hqr⟩ := quiet_bind (kept_follows.assignments hk fuel)
        (fun _ => assignTo_follows _ _ _) hr hqr
      obtain ⟨us, hus, hd'⟩ := ih _ _ _ hvalue hqw
      cases target with
      | reference name =>
        cases hr
        obtain ⟨rfl, hname⟩ := hd.of_reference
        refine ⟨name :: u.cursor.current :: us, ?_, .assign hname (by simpa using hop) hd'⟩
        rw [hts, rest_next hend, hus]
        rfl
      | _ =>
        -- any other target is an error, which is recorded although a value is given
        obtain ⟨_, x, hx, hq1, hr, hq2⟩ := quiet_bind (report_follows _)
          (fun _ => kept_follows.pure _) hr hqr
        rw [report_run] at hx
        split at hx <;> cases hx
        exact absurd hq1 (not_quiet_reported _ _)

end Levels

/-- **An expression that is read without an error is one of the grammar.** -/
theorem expressionWithin_reads (fuel : Nat) :
    Reads (expressionWithin fuel) (Derives .assignment) := by
  induction fuel with
  | zero => exact fun s e t h => by cases h
  | succ fuel ih =>
    have hk := kept_follows.expressionWithin fuel
    exact assignments_reads (kept_follows.equalityLevel hk _) (equalityLevel_reads hk ih _) _

/-! ### Statements -/

/-- In front of the tokens `us` the tokens `ts` begin with a statement, provided that declarations go
on from there, or, inside a block, its closing brace comes. -/
def Precedes (b : Bool) (ts us : List Token) (stmt : Stmt) : Prop :=
  ∀ ws p, Declarations b us ws p → (b = false → ∀ t vs, us = t :: vs → t.kind ≠ .rightBrace) →
    Declarations b ts ws (stmt :: p)

/-- In quiet runs outside or inside of blocks a step reads a statement. -/
def ReadsStmt (x : Action Stmt) : Prop :=
  ∀ s stmt t, 0 ≤ s.depth → x s = .ok stmt t → Quiet s t →
    Precedes (decide (0 < s.depth)) s.cursor.rest t.cursor.rest stmt

theorem lineEnds_takeWhile (ts : List Token) :
    LineEnds (ts.takeWhile (·.kind == .endOfLine)) := by
  intro t ht
  simpa using List.all_eq_true.1 List.all_takeWhile t ht

/-- Passing line ends splits the tokens behind them off. -/
theorem rest_skipLines (c : Cursor) : ∃ ls, LineEnds ls ∧ c.rest = ls ++ c.skipLines.rest := by
  refine ⟨_, lineEnds_takeWhile c.rest, ?_⟩
  rw [Cursor.skipLines_rest, List.takeWhile_append_dropWhile]

/-- What is passed as a terminator is one. -/
theorem closes_of_passTerminator {depth : Int} {c d : Cursor}
    (h : c.passTerminator? depth = some d) : Closes (decide (0 < depth)) c.rest d.rest := by
  rcases Cursor.passTerminator?_eq_some.1 h with ⟨hk, rfl⟩ | ⟨hk, rfl⟩ | ⟨hk, rfl⟩ | ⟨⟨hk, hd⟩, rfl⟩
  · exact .endOfInput hk
  · obtain ⟨ls, hls, hr⟩ := rest_skipLines c
    rw [hr]
    refine .lines ?_ hls
    -- the line end under the cursor is one of those that are passed
    rintro rfl
    have hc : c.current = c.skipLines.current := (List.cons.inj hr).1
    exact c.skipLines_kind (by rw [Cursor.kind, ← hc]; exact hk)
  · obtain ⟨ls, hls, hr⟩ := rest_skipLines c.advance
    rw [(Cursor.rest_advance (by rw [hk]; decide)).1, hr]
    exact .semicolon hk hls
  · exact .brace (by simpa using hd) hk

theorem requireTerminator_ok {message : String} {s t : State} {u : Unit}
    (h : requireTerminator message s = .ok u t) :
    s.cursor.passTerminator? s.depth = some t.cursor ∧ t = s.moveTo t.cursor := by
  rw [requireTerminator_run] at h
  cases hc : s.cursor.passTerminator? s.depth with
  | none =>
    rw [hc] at h
    exact absurd h (failHere_ne_ok _ _ _ _ _)
  | some c =>
    rw [hc] at h
    cases h
    exact ⟨rfl, rfl⟩

/-- An expression and the end of the statement behind it. -/
theorem endedExpression_reads {fuel : Nat} {message : String} {s t : State} {e : Expr}
    (h : endedExpression fuel message s = .ok e t) (hq : Quiet s t) :
    ∃ ts us, s.cursor.rest = ts ++ us ∧ Derives .assignment ts e ∧
      Closes (decide (0 < s.depth)) us t.cursor.rest := by
  have hk := kept_follows.expressionWithin fuel
  obtain ⟨f, u, hf, hqf, hr, -⟩ := quiet_bind hk (fun _ => kept_follows.bind
    (kept_follows.requireTerminator _) fun _ => kept_follows.pure _) h hq
  obtain ⟨_, v, hv, hw⟩ := bind_ok.1 hr
  cases hw
  obtain ⟨ts, hts, hd⟩ := expressionWithin_reads fuel _ _ _ hf hqf
  refine ⟨ts, _, hts, hd, ?_⟩
  rw [← (hk.ok hf).depth]
  exact closes_of_passTerminator (requireTerminator_ok hv).1

/-- The rest of a declaration, by its initial value. -/
theorem declarationRest_reads {fuel : Nat} {s t : State} {stmt : Stmt} {v : Token}
    (h : declarationRest fuel s = .ok stmt t) (hq : Quiet s t) (hv : v.kind = .keyword .kVar) :
    ∃ ts us, v :: s.cursor.rest = ts ++ us ∧ Plain ts stmt ∧
      Closes (decide (0 < s.depth)) us t.cursor.rest := by
  have hik := kept_follows.initialValue fuel
  obtain ⟨name, u, hname, hr⟩ := bind_ok.1 h
  obtain ⟨hrest, hnk, rfl⟩ := expect_ok hname
  obtain ⟨initial, w, hi, hqi, hr, -⟩ := quiet_bind hik (fun _ => kept_follows.bind
    (kept_follows.requireTerminator _) fun _ => kept_follows.pure _) hr hq
  obtain ⟨_, x, hx, hr⟩ := bind_ok.1 hr
  cases hr
  have hcl := closes_of_passTerminator (requireTerminator_ok hx).1
  rw [(hik.ok hi).depth] at hcl
  obtain ⟨o, y, hto, hi⟩ := bind_ok.1 hi
  cases o with
  | none =>
    obtain ⟨-, rfl⟩ := takeIf_none.1 hto
    cases hi
    exact ⟨[v, name], _, by rw [hrest]; rfl, .declare hv hnk, hcl⟩
  | some equals =>
    obtain ⟨⟨hend, hop⟩, rfl, rfl⟩ := takeIf_some.1 hto
    obtain ⟨e, z, he, hi⟩ := bind_ok.1 hi
    cases hi
    obtain ⟨ts, hts, hd⟩ := expressionWithin_reads fuel _ _ _ he hqi
    refine ⟨v :: name :: s.next.cursor.current :: ts, _, ?_,
      .initial hv hnk (by simpa using hop) hd, hcl⟩
    rw [hrest, rest_next hend, hts]
    rfl

/-! ### Blocks -/

variable {item : Action (Option Stmt)}

/-- In quiet runs a step that may drop a statement reads one. -/
def ReadsItem (x : Action (Option Stmt)) : Prop :=
  ∀ s o t, 0 ≤ s.depth → x s = .ok o t → Quiet s t →
    ∃ stmt, o = some stmt ∧ Precedes (decide (0 < s.depth)) s.cursor.rest t.cursor.rest stmt

theorem blockItems_reads (hk : Keeps Follows Leaves item) (hi : ReadsItem item) (fuel : Nat)
    {s t : State} {items : List Stmt} (hd : 0 < s.depth)
    (h : blockItems item fuel s = .ok items t) (hq : Quiet s t) :
    Declarations true s.cursor.rest t.cursor.rest items := by
  induction fuel generalizing s items with
  | zero => cases h
  | succ fuel ih =>
    rw [blockItems_run] at h
    split at h
    · cases h
      exact .nil
    obtain ⟨o, u, ho, hqo, hr, hqr⟩ := quiet_bind hk (fun _ => kept_follows.bind
      (kept_follows.blockItems hk fuel) fun _ => kept_follows.pure _) h hq
    obtain ⟨rest, v, hrest, hv⟩ := bind_ok.1 hr
    cases hv
    -- inside a block a statement may end at the closing brace, so nothing is asked of what follows
    obtain ⟨stmt, rfl, hstmt⟩ := hi _ _ _ (Int.le_of_lt hd) ho hqo
    have hdecl := ih (by rw [(hk.ok ho).depth]; exact hd) hrest hqr
    rw [decide_eq_true hd] at hstmt
    exact hstmt _ _ hdecl fun h => by cases h

/-- A block reads its statements, and then its end as if it stood in another block. -/
theorem blockBody_reads (hk : Keeps Follows Leaves item) (hi : ReadsItem item) {fuel : Nat}
    {s t : State} {stmt : Stmt} (hd : 0 < s.depth) (h : blockBody fuel item s = .ok stmt t)
    (hq : Quiet s t) :
    ∃ ls ts r us items, s.cursor.rest = ls ++ ts ∧ LineEnds ls ∧ r.kind = .rightBrace ∧
      Declarations true ts (r :: us) items ∧ Closes true us t.cursor.rest ∧
        stmt = .block items := by
  have hik := kept_follows.blockItems hk fuel
  rw [blockBody_run] at h
  obtain ⟨ls, hls, hsplit⟩ := rest_skipLines s.cursor
  obtain ⟨items, u, hitems, hqu, hr, -⟩ := quiet_bind hik (fun _ => kept_follows.bind
    (kept_follows.expect _ _) fun _ => kept_follows.bind (kept_follows.requireTerminator _)
      fun _ => kept_follows.pure _) h hq
  obtain ⟨r, v, hr', hr⟩ := bind_ok.1 hr
  obtain ⟨hur, hrk, rfl⟩ := expect_ok hr'
  obtain ⟨_, w, hw, hx⟩ := bind_ok.1 hr
  cases hx
  have hdecl := blockItems_reads hk hi fuel (s := s.moveTo s.cursor.skipLines) hd hitems hqu
  have hcl := closes_of_passTerminator (requireTerminator_ok hw).1
  have hdepth : u.next.depth = s.depth := (hik.ok hitems).depth
  rw [hdepth, decide_eq_true hd] at hcl
  rw [hur] at hdecl
  exact ⟨ls, _, r, _, items, hsplit, hls, hrk, hdecl, hcl, rfl⟩

theorem blockRest_reads (hk : Keeps Follows Leaves item) (hi : ReadsItem item) {fuel : Nat}
    {s t : State} {stmt : Stmt} (hd : 0 ≤ s.depth) (hend : s.cursor.kind = .leftBrace)
    (h : blockRest fuel item s.next = .ok stmt t) (hq : Quiet s t) :
    Precedes (decide (0 < s.depth)) s.cursor.rest t.cursor.rest stmt := by
  rw [blockRest, insideBlock_run] at h
  cases hbody : blockBody fuel item s.next.opened with
  | error e w => rw [hbody] at h; cases h
  | ok stmt w =>
    rw [hbody] at h
    cases h
    have hopen : 0 < s.next.opened.depth := by
      simp only [State.opened, State.next, State.moveTo]
      omega
    obtain ⟨ls, ts, r, us, items, hsplit, hls, hr, hdecl, hc, rfl⟩ :=
      blockBody_reads hk hi hopen hbody hq
    intro ws p hws hb
    have hrest : s.cursor.rest = s.cursor.current :: (ls ++ ts) := by
      rw [rest_next (by rw [hend]; decide)]
      exact congrArg _ hsplit
    rw [hrest]
    refine .block hend hls hdecl hr ?_ hws
    cases hc with
    | lines hne hls => exact .lines hne hls
    | semicolon ht hls => exact .semicolon ht hls
    | endOfInput ht => exact .endOfInput ht
    | @brace t vs _ ht =>
      -- at the outermost level nothing goes on from a closing brace
      by_cases hb' : 0 < s.depth
      · exact .brace (decide_eq_true hb') ht
      · exact absurd ht (hb (decide_eq_false hb') _ _ rfl)

theorem statementOver_reads (hk : Keeps Follows Leaves item) (hi : ReadsItem item) (fuel : Nat) :
    ReadsStmt (statementOver fuel item) := by
  intro s stmt t hd h hq
  rw [statementOver_run] at h
  split_ifs at h with hv hp hb
  · obtain ⟨ts, us, hts, hs, hc⟩ := declarationRest_reads h hq hv
    intro ws p hws _
    rw [rest_next (by rw [hv]; decide), hts]
    exact .plain hs hc hws
  · obtain ⟨e, w, he, hr⟩ := bind_ok.1 h
    cases hr
    obtain ⟨ts, us, hts, hd, hc⟩ := endedExpression_reads he hq
    intro ws p hws _
    rw [rest_next (by rw [hp]; decide), hts, ← List.cons_append]
    exact .plain (.print hp hd) hc hws
  · exact blockRest_reads hk hi hd hb h hq
  · obtain ⟨e, w, he, hr⟩ := bind_ok.1 h
    cases hr
    obtain ⟨ts, us, hts, hd, hc⟩ := endedExpression_reads he hq
    intro ws p hws _
    rw [hts]
    exact .plain (.expression hd) hc hws

theorem recovering_reads {x : Action Stmt} (hk : Keeps Follows Leaves x) (hx : ReadsStmt x) :
    ReadsItem (recovering x) := by
  intro s o t hd h hq
  rw [recovering_run] at h
  cases hs : x s with
  | ok stmt u =>
    rw [hs] at h
    cases h
    exact ⟨stmt, rfl, hx _ _ _ hd hs hq⟩
  | error e u =>
    rw [hs] at h
    have hl := hk.error hs
    cases e with
    | interrupted => cases h
    | endless => cases h
    | mismatch m =>
      cases h
      exact absurd (hq.split hl.toFollows (.resumed u)).1 hl.not_quiet

/-- **A statement that is read without an error is one of the grammar**, and none is dropped. -/
theorem statementWithin_reads (fuel : Nat) : ReadsItem (statementWithin fuel) := by
  induction fuel with
  | zero => exact fun s o t _ h => by cases h
  | succ fuel ih =>
    have hk := kept_follows.statementWithin fuel
    exact recovering_reads (kept_follows.statementOver hk _) (statementOver_reads hk ih _)

/-! ### Programs -/

/-- Without errors there is no gap between the entries. -/
theorem steps_reads {s t : State} {p : Program} (h : Steps s p t) (hd : s.depth = 0)
    (ht : t.cursor.kind = .endOfInput) (hq : Quiet s t) :
    ∃ q : List Stmt, p = q.map some ∧ Declarations false s.cursor.rest t.cursor.rest q := by
  induction h with
  | nil s => exact ⟨[], rfl, .nil⟩
  | @cons s t u o p hk ho hp ih =>
    have hfol := kept_follows.statement.ok ho
    obtain ⟨hq₁, hq₂⟩ := hq.split hfol hp.follows
    obtain ⟨stmt, rfl, hstmt⟩ := statementWithin_reads _ _ _ _ (by omega) ho hq₁
    obtain ⟨q, rfl, hdecl⟩ := ih (by rw [hfol.depth, hd]) ht hq₂
    refine ⟨stmt :: q, rfl, ?_⟩
    rw [hd] at hstmt
    refine hstmt _ _ hdecl fun _ w ws hu hw => ?_
    -- nothing could go on from a closing brace, but the end of the input is reached
    rw [hu] at hdecl
    obtain ⟨he, -⟩ := hdecl.eq_nil (not_opens (.inr (.inl hw)))
    rw [Cursor.rest, List.cons.injEq] at he
    rw [Cursor.kind, he.1, hw] at ht
    cases ht

/-- In a stream with a single end-of-input token nothing comes behind it. -/
theorem rest_of_atEnd {c d : Cursor} {tokens : List Token} {e : Token} (h : c.Leads d)
    (hts : ∀ t ∈ tokens, t.kind ≠ .endOfInput) (hc : c.rest = tokens ++ [e])
    (hd : d.kind = .endOfInput) : d.rest = [e] := by
  obtain ⟨taken, -, hr, -⟩ := h.exists_taken
  rw [hc, Cursor.rest] at hr
  rcases List.eq_nil_or_concat d.ahead with ha | ⟨l, x, ha⟩
  · rw [ha] at hr
    rw [Cursor.rest, ha, (List.append_inj' hr rfl).2]
  · rw [ha, List.concat_eq_append, ← List.cons_append, ← List.append_assoc] at hr
    have hmem : d.current ∈ tokens := by
      rw [(List.append_inj' hr rfl).1]
      simp
    exact absurd hd (hts _ hmem)

/-- **A program that is read without an error is one of the grammar.** -/
theorem program_reads {budget : Nat} {tokens : List Token} {e : Token} {p : Program}
    (hts : ∀ t ∈ tokens, t.kind ≠ .endOfInput) (he : e.kind = .endOfInput)
    (h : Gives budget (tokens ++ [e]) p []) :
    ∃ q : List Stmt, p = q.map some ∧ IsProgram (tokens ++ [e]) q := by
  obtain ⟨s, hs⟩ := exists_start tokens he {}
  obtain ⟨hrest, hd, hm, -⟩ := of_start hs
  obtain ⟨t, hsteps, hend, ht⟩ := (gives_iff_steps hs (budgetSpent_zero _)).1 h
  obtain ⟨q, rfl, hdecl⟩ := steps_reads hsteps hd hend (ht.trans hm.symm)
  obtain ⟨ls, hls, hsplit⟩ := rest_skipLines s.cursor
  have hleads := (Cursor.Leads.skipLines s.cursor).trans hsteps.follows.leads
  rw [rest_of_atEnd hleads hts hrest hend] at hdecl
  refine ⟨q, rfl, ?_⟩
  rw [← hrest, hsplit]
  exact .mk hls he hdecl

end LoxFront.Parse
