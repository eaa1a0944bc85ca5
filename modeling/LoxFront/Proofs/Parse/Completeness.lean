import LoxFront.Proofs.Parse.Soundness

/-!
# What the grammar derives is read

Where the tokens ahead begin with an expression of the grammar, and what comes next does not continue
it (`Continues`), the expression is read, and the cursor comes to rest behind it
(`expressionWithin_completes`).  The same is true of declarations (`declarations_run`), since their
ends are taken as far as they go, and no declaration begins with a line end.

Both directions together make up `reads_exactly_the_grammar`.
-/

namespace LoxFront.Parse

open Grammar

/-! ### What continues an expression -/

/-- A token of this kind behind an expression of a level continues it. -/
inductive Continues : Level → Kind → Prop
  | joins {b : BinaryLevel} {k : Kind} : Joins b k → Continues (.binary b) k
  | tighter {b : BinaryLevel} {k : Kind} : Continues (tighter b) k → Continues (.binary b) k
  | equality {k : Kind} : Continues (.binary .equality) k → Continues .assignment k
  | equals : Continues .assignment .equal

theorem not_continues_unary {k : Kind} : ¬ Continues .unary k := by
  intro h
  cases h

theorem continues_binary {b : BinaryLevel} {k : Kind} :
    Continues (.binary b) k ↔ Joins b k ∨ Continues (tighter b) k := by
  constructor
  · intro h
    cases h with
    | joins h => exact .inl h
    | tighter h => exact .inr h
  · rintro (h | h)
    · exact .joins h
    · exact .tighter h

/-- What joins operands of a level does not continue the operands. -/
theorem not_continues_tighter {b : BinaryLevel} {k : Kind} (h : Joins b k) :
    ¬ Continues (tighter b) k := by
  cases h <;> simp [tighter, continues_binary, not_continues_unary, ← hasOperator_iff,
    BinaryLevel.hasOperator]

theorem joins_of_continues {b : BinaryLevel} {k : Kind} (h : Continues (.binary b) k) :
    ∃ b', Joins b' k := by
  generalize hl : Level.binary b = l at h
  induction h generalizing b with
  | joins hj => exact ⟨_, hj⟩
  | @tighter b' k h ih =>
    cases b' with
    | product => exact absurd h not_continues_unary
    | _ => exact ih rfl
  | equality => cases hl
  | equals => cases hl

/-- An operator or an equals sign. -/
theorem continues_assignment {k : Kind} (h : Continues .assignment k) :
    k = .equal ∨ ∃ b, Joins b k := by
  cases h with
  | equality h => exact .inr (joins_of_continues h)
  | equals => exact .inl rfl

/-! ### Taking tokens -/

theorem current_eq {s : State} {u : Token} {us : List Token} (h : s.cursor.rest = u :: us) :
    s.cursor.current = u := (List.cons.inj h).1

theorem kind_eq {c : Cursor} {u : Token} {us : List Token} (h : c.rest = u :: us) :
    c.kind = u.kind := congrArg Token.kind (List.cons.inj h).1

theorem next_rest {s : State} {u : Token} {us : List Token} (h : s.cursor.rest = u :: us)
    (hk : u.kind ≠ .endOfInput) : s.next.cursor.rest = us := by
  have hn := rest_next (s := s) (by rwa [kind_eq h])
  rw [h] at hn
  exact (List.cons.inj hn).2.symm

theorem next_left {s : State} {u : Token} {us : List Token} (h : s.cursor.rest = u :: us)
    (hk : u.kind ≠ .endOfInput) : s.next.cursor.left + 1 = s.cursor.left :=
  left_next (by rwa [kind_eq h])

theorem takeIf_of_rest {test : Kind → Bool} {s : State} {u : Token} {us : List Token}
    (h : s.cursor.rest = u :: us) (hk : u.kind ≠ .endOfInput) (ht : test u.kind = true) :
    takeIf test s = .ok (some u) s.next :=
  takeIf_some.2 ⟨by rw [kind_eq h]; exact ⟨hk, ht⟩, current_eq h, rfl⟩

theorem takeIf_none_of_rest {test : Kind → Bool} {s : State} {u : Token} {us : List Token}
    (h : s.cursor.rest = u :: us) (ht : test u.kind ≠ true) : takeIf test s = .ok none s :=
  takeIf_none.2 ⟨by rw [kind_eq h]; exact fun h => ht h.2, rfl⟩

theorem expect_of_rest (message : String) {s : State} {u : Token} {us : List Token}
    (h : s.cursor.rest = u :: us) (hk : u.kind ≠ .endOfInput) :
    expect u.kind message s = .ok u s.next := by
  rw [expect_run, kind_eq h, if_pos ⟨hk, rfl⟩, current_eq h]

/-! ### Expressions -/

/-- Where fewer than `k` tokens are ahead, a step reads the tokens `ts` of a level as `e`, if what
comes next does not continue them. -/
def Completes (k : Nat) (x : Action Expr) (l : Level) (ts : List Token) (e : Expr) : Prop :=
  ∀ s t us, s.cursor.rest = ts ++ t :: us → s.cursor.left < k → ¬ Continues l t.kind →
    ∃ c : Cursor, c.rest = t :: us ∧ x s = .ok e (s.moveTo c)

theorem left_of_rest {c d : Cursor} {ts : List Token} (h : c.rest = ts ++ d.rest) :
    c.left = ts.length + d.left := by
  have := congrArg List.length h
  simp only [Cursor.length_rest, List.length_append] at this
  omega

section Levels

variable {k : Nat} {operand inner : Action Expr}

theorem ne_end_of_startsPrimary {k : Kind} (h : startsPrimary k = true) : k ≠ .endOfInput := by
  rintro rfl
  cases h

theorem primary_completes
    (hi : ∀ ts e, Derives .assignment ts e → Completes k inner .assignment ts e)
    {ts : List Token} {e : Expr} (h : Derives .primary ts e) :
    Completes (k + 1) (primary inner) .primary ts e := by
  intro s t us hr hl _
  cases h with
  | literal hv =>
    have hstart := startsPrimary_of_denotes hv
    have hend := ne_end_of_startsPrimary hstart
    refine ⟨s.next.cursor, next_rest hr hend, ?_⟩
    rw [primary, bind_of_ok (takeIf_of_rest hr hend hstart)]
    simp only [primaryFrom, literal?_eq_some.2 hv]
    rfl
  | reference hk =>
    rename_i t
    have hend : t.kind ≠ .endOfInput := by rw [hk]; decide
    refine ⟨s.next.cursor, next_rest hr hend, ?_⟩
    rw [primary, bind_of_ok (takeIf_of_rest hr hend (by rw [hk]; rfl))]
    simp only [primaryFrom, literal?, hk, ↓reduceIte]
    rfl
  | @group l r ts e hlk hd hrk =>
    have hend : l.kind ≠ .endOfInput := by rw [hlk]; decide
    have hrend : r.kind ≠ .endOfInput := by rw [hrk]; decide
    have hr' : s.cursor.rest = l :: (ts ++ r :: t :: us) := by simpa using hr
    have hcont : ¬ Continues .assignment r.kind := by
      intro h
      rcases continues_assignment h with h | ⟨b, h⟩
      · rw [hrk] at h; cases h
      · rw [hrk] at h; cases h
    obtain ⟨c, hc, hin⟩ := hi ts e hd s.next r (t :: us) (next_rest hr' hend)
      (by have := next_left hr' hend; omega) hcont
    refine ⟨(s.moveTo c).next.cursor, next_rest (s := s.moveTo c) hc hrend, ?_⟩
    rw [primary, bind_of_ok (takeIf_of_rest hr' hend (by rw [hlk]; rfl))]
    simp only [primaryFrom, literal?, hlk]
    refine (bind_of_ok hin).trans ((bind_of_ok (a := r) (t := (s.moveTo c).next) ?_).trans rfl)
    rw [← hrk]
    exact expect_of_rest _ hc hrend

theorem not_negates_head {ts : List Token} {e : Expr} (h : Derives .primary ts e) :
    ∃ t us, ts = t :: us ∧ ¬ Negates t.kind := by
  cases h with
  | @literal t v hv =>
    refine ⟨t, [], rfl, ?_⟩
    cases hv <;> simp [← isPrefixOperator_iff, isPrefixOperator, *]
  | reference hk => exact ⟨_, _, rfl, by simp [← isPrefixOperator_iff, isPrefixOperator, hk]⟩
  | group hl _ _ => exact ⟨_, _, rfl, by simp [← isPrefixOperator_iff, isPrefixOperator, hl]⟩

theorem prefixed_completes (ho : ∀ ts e, Derives .primary ts e → Completes k operand .primary ts e)
    {fuel : Nat} (hf : fuel ≤ k) {ts : List Token} {e : Expr} (h : Derives .unary ts e) :
    Completes fuel (prefixed operand fuel) .unary ts e := by
  induction fuel generalizing ts e with
  | zero => exact fun s t us _ hl => absurd hl (Nat.not_lt_zero _)
  | succ fuel ih =>
    intro s t us hr hl hc
    cases h with
    | primary h =>
      obtain ⟨u, vs, rfl, hu⟩ := not_negates_head h
      obtain ⟨c, hc', hin⟩ := ho _ _ h s t us hr (by omega) fun h => by cases h
      refine ⟨c, hc', ?_⟩
      rw [prefixed, bind_of_ok (takeIf_none_of_rest hr (mt isPrefixOperator_iff.1 hu))]
      exact hin
    | @unary o ts e ho h =>
      have hend : o.kind ≠ .endOfInput := by
        intro h
        rw [h] at ho
        cases ho
      obtain ⟨c, hc', hin⟩ := ih (by omega) h s.next t us (next_rest hr hend)
        (by have := next_left hr hend; omega) hc
      refine ⟨c, hc', ?_⟩
      rw [prefixed, bind_of_ok (takeIf_of_rest hr hend (isPrefixOperator_iff.2 ho))]
      exact bind_of_ok hin

/-- A chain is read operand by operand, so its derivation may be followed from the left. -/
theorem chain_of_derives {b : BinaryLevel}
    (ho : ∀ ts e, Derives (tighter b) ts e → Completes k operand (tighter b) ts e)
    {ts : List Token} {e : Expr} (h : Derives (.binary b) ts e) {s : State} {t : Token}
    {us : List Token} (hr : s.cursor.rest = ts ++ t :: us) (hl : s.cursor.left < k)
    (hc : ¬ Continues (tighter b) t.kind) :
    ∃ (c : Cursor) (fuel : Nat), c.rest = t :: us ∧ c.left < fuel ∧
      binary b k operand s = chain b operand fuel e (s.moveTo c) := by
  generalize hlevel : Level.binary b = l at h
  -- the last operator of a derivation is the last one that the loop takes
  induction h generalizing t us with
  | @operand b' ts e h _ =>
    cases hlevel
    obtain ⟨c, hc', hin⟩ := ho ts e h s t us hr hl hc
    refine ⟨c, k, hc', ?_, bind_of_ok hin⟩
    have := left_of_rest (hr.trans (congrArg _ hc'.symm))
    omega
  | @operator b' o ts vs e f h ho' h' ih _ =>
    cases hlevel
    have hend : o.kind ≠ .endOfInput := by
      intro h
      rw [h] at ho'
      cases ho'
    obtain ⟨c, fuel, hc', hfuel, hchain⟩ := ih
      (by simpa using hr : s.cursor.rest = ts ++ o :: (vs ++ t :: us)) (not_continues_tighter ho') rfl
    obtain ⟨fuel, rfl⟩ : ∃ i, fuel = i + 1 := ⟨fuel - 1, by omega⟩
    have hnext := next_rest (s := s.moveTo c) hc' hend
    have hleft := next_left (s := s.moveTo c) hc' hend
    have hcl : (s.moveTo c).cursor.left ≤ s.cursor.left := by
      have := left_of_rest (by rw [hr, hc']; simp : s.cursor.rest = ts ++ c.rest)
      show c.left ≤ _
      omega
    obtain ⟨d, hd, hin⟩ := ho vs f h' (s.moveTo c).next t us hnext (by omega) hc
    refine ⟨d, fuel, hd, ?_, ?_⟩
    · have := left_of_rest (hnext.trans (congrArg _ hd.symm))
      have : (s.moveTo c).cursor.left = c.left := rfl
      omega
    · rw [hchain, chain, bind_of_ok (takeIf_of_rest hc' hend (hasOperator_iff.2 ho'))]
      exact bind_of_ok hin
  | _ => cases hlevel

theorem binary_completes {b : BinaryLevel}
    (ho : ∀ ts e, Derives (tighter b) ts e → Completes k operand (tighter b) ts e)
    {ts : List Token} {e : Expr} (h : Derives (.binary b) ts e) :
    Completes k (binary b k operand) (.binary b) ts e := by
  intro s t us hr hl hc
  rw [continues_binary, not_or] at hc
  obtain ⟨c, fuel, hc', hfuel, hchain⟩ := chain_of_derives ho h hr hl hc.2
  obtain ⟨fuel, rfl⟩ : ∃ i, fuel = i + 1 := ⟨fuel - 1, by omega⟩
  refine ⟨c, hc', ?_⟩
  rw [hchain, chain, bind_of_ok (takeIf_none_of_rest hc' (mt hasOperator_iff.1 hc.1))]
  rfl

theorem equalityLevel_completes
    (hi : ∀ ts e, Derives .assignment ts e → Completes k inner .assignment ts e)
    {ts : List Token} {e : Expr} (h : Derives (.binary .equality) ts e) :
    Completes (k + 1) (equalityLevel (k + 1) inner) (.binary .equality) ts e := by
  have hp := fun ts e (h : Derives .primary ts e) => primary_completes hi h
  refine equalityLevel_induction
    (P := fun l x => ∀ ts e, Derives l ts e → Completes (k + 1) x l ts e) ?_ ?_ ts e h
  · exact fun ts e h => prefixed_completes hp (Nat.le_refl _) h
  · exact fun b x hx ts e h => binary_completes hx h

theorem assignments_completes
    (ho : ∀ ts e, Derives (.binary .equality) ts e →
      Completes k operand (.binary .equality) ts e)
    {fuel : Nat} (hf : fuel ≤ k) {ts : List Token} {e : Expr} (h : Derives .assignment ts e) :
    Completes fuel (assignments operand fuel) .assignment ts e := by
  induction fuel generalizing ts e with
  | zero => exact fun s t us _ hl => absurd hl (Nat.not_lt_zero _)
  | succ fuel ih =>
    intro s t us hr hl hc
    cases h with
    | equality h =>
      obtain ⟨c, hc', hin⟩ := ho ts e h s t us hr (by omega) fun h => hc (.equality h)
      have hne : (t.kind == Kind.equal) ≠ true := by
        intro h
        rw [beq_iff_eq] at h
        exact hc (h ▸ .equals)
      refine ⟨c, hc', (bind_of_ok hin).trans ?_⟩
      exact bind_of_ok (takeIf_none_of_rest (s := s.moveTo c) hc' hne)
    | @assign name equals ts e hn he h =>
      -- the target is read as an operand, since only then the equals sign is seen
      have hname : Derives (.binary .equality) [name] (.reference name) :=
        .operand (.operand (.operand (.operand (.primary (.reference hn)))))
      have hend : equals.kind ≠ .endOfInput := by rw [he]; decide
      have hcont : ¬ Continues (.binary .equality) equals.kind := by
        intro h
        obtain ⟨b, h⟩ := joins_of_continues h
        rw [he] at h
        cases h
      obtain ⟨c, hc', hin⟩ := ho _ _ hname s equals (ts ++ t :: us) hr (by omega) hcont
      have hleft := next_left (s := s.moveTo c) hc' hend
      have hcl : (s.moveTo c).cursor.left < s.cursor.left := by
        have := left_of_rest (by rw [hr, hc']; simp : s.cursor.rest = [name] ++ c.rest)
        rw [List.length_singleton] at this
        show c.left < _
        omega
      obtain ⟨d, hd, hval⟩ := ih (by omega) h (s.moveTo c).next t us
        (next_rest (s := s.moveTo c) hc' hend) (by omega) hc
      refine ⟨d, hd, (bind_of_ok hin).trans ?_⟩
      refine (bind_of_ok (takeIf_of_rest (s := s.moveTo c) hc' hend (by rw [he]; rfl))).trans ?_
      exact bind_of_ok hval

end Levels

/-- **Every expression of the grammar is read.** -/
theorem expressionWithin_completes (fuel : Nat) {ts : List Token} {e : Expr}
    (h : Derives .assignment ts e) :
    Completes fuel (expressionWithin fuel) .assignment ts e := by
  induction fuel generalizing ts e with
  | zero => exact fun s t us _ hl => absurd hl (Nat.not_lt_zero _)
  | succ fuel ih =>
    exact assignments_completes (fun _ _ h => equalityLevel_completes (fun _ _ h => ih h) h)
      (Nat.le_refl _) h

/-! ### Ends of statements -/

theorem skipLines_of_rest {c : Cursor} {ls us : List Token} {u : Token} (hls : LineEnds ls)
    (hu : u.kind ≠ .endOfLine) (h : c.rest = ls ++ u :: us) : c.skipLines.rest = u :: us := by
  rw [Cursor.skipLines_rest, h, List.dropWhile_append_of_pos (by simpa using fun t => hls t)]
  simp [hu]

/-- An end is passed as far as it goes. -/
theorem passTerminator_of_closes {b : Bool} {depth : Int} (hb : b = true → 0 < depth) {c : Cursor}
    {us : List Token} {u : Token} (h : Closes b c.rest (u :: us)) (hu : u.kind ≠ .endOfLine) :
    ∃ d, c.passTerminator? depth = some d ∧ d.rest = u :: us := by
  simp only [Cursor.passTerminator?_eq_some]
  generalize hc : c.rest = ts at h
  cases h with
  | @lines ls _ hne hls =>
    obtain ⟨l, ls, rfl⟩ := List.exists_cons_of_ne_nil hne
    have hl : c.kind = .endOfLine := (kind_eq hc).trans (hls l List.mem_cons_self)
    exact ⟨_, .inr (.inl ⟨hl, rfl⟩), skipLines_of_rest hls hu hc⟩
  | @semicolon t ls _ ht hls =>
    have hk : c.kind = .semicolon := (kind_eq hc).trans ht
    have hadv := (Cursor.rest_advance (c := c) (by rw [hk]; decide)).1
    rw [hc] at hadv
    exact ⟨_, .inr (.inr (.inl ⟨hk, rfl⟩)),
      skipLines_of_rest hls hu (List.cons.inj hadv).2.symm⟩
  | endOfInput ht => exact ⟨c, .inl ⟨(kind_eq hc).trans ht, rfl⟩, hc⟩
  | brace hb' ht =>
    exact ⟨c, .inr (.inr (.inr ⟨⟨(kind_eq hc).trans ht, hb hb'⟩, rfl⟩)), hc⟩

/-- No end of a statement continues an expression. -/
theorem not_continues_of_closes {b : Bool} {ts us : List Token} (h : Closes b ts us) :
    ∃ t vs, ts = t :: vs ∧ ¬ Continues .assignment t.kind := by
  have hno : ∀ k : Kind, k = .endOfLine ∨ k = .semicolon ∨ k = .endOfInput ∨ k = .rightBrace →
      ¬ Continues .assignment k := by
    intro k hk h
    rcases continues_assignment h with rfl | ⟨b, h⟩
    · simp at hk
    · rcases hk with rfl | rfl | rfl | rfl <;> cases h
  cases h with
  | @lines ls us hne hls =>
    obtain ⟨l, ls, rfl⟩ := List.exists_cons_of_ne_nil hne
    exact ⟨l, ls ++ us, rfl, hno _ (.inl (hls l List.mem_cons_self))⟩
  | semicolon ht _ => exact ⟨_, _, rfl, hno _ (.inr (.inl ht))⟩
  | endOfInput ht => exact ⟨_, _, rfl, hno _ (.inr (.inr (.inl ht)))⟩
  | brace _ ht => exact ⟨_, _, rfl, hno _ (.inr (.inr (.inr ht)))⟩

/-! ### Statements -/

section Statements

variable {b : Bool} {fuel : Nat} {item : Action (Option Stmt)} {s : State} {ts us vs : List Token}
  {v : Token}

theorem requireTerminator_of_closes (message : String) (hb : b = true → 0 < s.depth)
    (h : Closes b s.cursor.rest (v :: vs)) (hv : v.kind ≠ .endOfLine) :
    ∃ c : Cursor, c.rest = v :: vs ∧ requireTerminator message s = .ok () (s.moveTo c) := by
  obtain ⟨c, hpass, hc⟩ := passTerminator_of_closes hb h hv
  exact ⟨c, hc, by rw [requireTerminator_run, hpass]⟩

theorem endedExpression_completes (fuel : Nat) (message : String) {e : Expr} (hb : b = true → 0 < s.depth)
    (hr : s.cursor.rest = ts ++ us) (hl : s.cursor.left < fuel) (h : Derives .assignment ts e)
    (hc : Closes b us (v :: vs)) (hv : v.kind ≠ .endOfLine) :
    ∃ c : Cursor, c.rest = v :: vs ∧ endedExpression fuel message s = .ok e (s.moveTo c) := by
  obtain ⟨t, us, rfl, ht⟩ := not_continues_of_closes hc
  obtain ⟨c, hc', hin⟩ := expressionWithin_completes fuel h s t us hr hl ht
  obtain ⟨d, hd, hend⟩ := requireTerminator_of_closes (s := s.moveTo c) message hb
    (by rw [show (s.moveTo c).cursor.rest = _ from hc']; exact hc) hv
  exact ⟨d, hd, (bind_of_ok hin).trans (bind_of_ok hend)⟩

theorem not_begins {k : Kind}
    (hk : k = .keyword .kVar ∨ k = .keyword .kPrint ∨ k = .leftBrace) : ¬ Begins k := by
  intro h
  have := starts_of_begins h
  rcases hk with rfl | rfl | rfl <;> simp [startsPrimary, isPrefixOperator] at this

/-- The tokens behind the keyword of a declaration. -/
theorem declarationRest_completes (fuel : Nat) {name : Token} {initial : Option Expr}
    (hb : b = true → 0 < s.depth) (hn : name.kind = .identifier)
    (hr : s.cursor.rest = name :: (ts ++ us)) (hl : s.cursor.left < fuel)
    (h : (ts = [] ∧ initial = none) ∨ ∃ equals xs e, ts = equals :: xs ∧ equals.kind = .equal ∧
      Derives .assignment xs e ∧ initial = some e)
    (hc : Closes b us (v :: vs)) (hv : v.kind ≠ .endOfLine) :
    ∃ c : Cursor, c.rest = v :: vs ∧
      declarationRest fuel s = .ok (.declare name initial) (s.moveTo c) := by
  obtain ⟨t, us, rfl, ht⟩ := not_continues_of_closes hc
  have hend : name.kind ≠ .endOfInput := by rw [hn]; decide
  have hname := expect_of_rest "Expect variable name." hr hend
  rw [hn] at hname
  have hleft := next_left hr hend
  have hrest := next_rest hr hend
  have hinit : ∃ c : Cursor, c.rest = t :: us ∧
      initialValue fuel s.next = .ok initial (s.moveTo c) := by
    rcases h with ⟨rfl, rfl⟩ | ⟨equals, xs, e, rfl, he, hd, rfl⟩
    · refine ⟨s.next.cursor, hrest, bind_of_ok (takeIf_none_of_rest hrest fun h => ht ?_)⟩
      rw [beq_iff_eq] at h
      exact h ▸ .equals
    · have heend : equals.kind ≠ .endOfInput := by rw [he]; decide
      have heleft := next_left hrest heend
      obtain ⟨c, hc', hin⟩ := expressionWithin_completes fuel hd s.next.next t us
        (next_rest hrest heend) (by omega) ht
      refine ⟨c, hc', (bind_of_ok (takeIf_of_rest hrest heend (by rw [he]; rfl))).trans ?_⟩
      exact bind_of_ok hin
  obtain ⟨c, hc', hin⟩ := hinit
  obtain ⟨d, hd, hclose⟩ := requireTerminator_of_closes (s := s.moveTo c)
    "Expect ';' or EOL after variable declaration." hb
    (by rw [show (s.moveTo c).cursor.rest = _ from hc']; exact hc) hv
  exact ⟨d, hd, (bind_of_ok hname).trans ((bind_of_ok hin).trans (bind_of_ok hclose))⟩

/-- **Every statement of the grammar other than a block is read.** -/
theorem plain_completes (fuel : Nat) {stmt : Stmt} (hb : b = true → 0 < s.depth)
    (hr : s.cursor.rest = ts ++ us) (hl : s.cursor.left < fuel) (h : Plain ts stmt)
    (hc : Closes b us (v :: vs)) (hv : v.kind ≠ .endOfLine) :
    ∃ c : Cursor, c.rest = v :: vs ∧ statementOver fuel item s = .ok stmt (s.moveTo c) := by
  have hnext : ∀ {w : Token} {k : Keyword} {ws : List Token}, w.kind = .keyword k →
      s.cursor.rest = w :: ws → s.next.cursor.rest = ws ∧ s.next.cursor.left < fuel := by
    intro w k ws hw hr
    have hend : w.kind ≠ .endOfInput := by rw [hw]; exact fun h => by cases h
    have := next_left hr hend
    exact ⟨next_rest hr hend, by omega⟩
  rw [statementOver_run]
  cases h with
  | declare hw hn =>
    obtain ⟨hr', hl'⟩ := hnext hw hr
    simp only [(kind_eq hr).trans hw, ↓reduceIte]
    have hr'' : s.next.cursor.rest = _ :: ([] ++ us) := hr'
    exact declarationRest_completes fuel hb hn hr'' hl' (.inl ⟨rfl, rfl⟩) hc hv
  | initial hw hn he h =>
    obtain ⟨hr', hl'⟩ := hnext hw hr
    simp only [(kind_eq hr).trans hw, ↓reduceIte]
    exact declarationRest_completes (s := s.next) fuel hb hn hr' hl'
      (.inr ⟨_, _, _, rfl, he, h, rfl⟩) hc hv
  | print hw h =>
    obtain ⟨hr', hl'⟩ := hnext hw hr
    obtain ⟨c, hc', hin⟩ := endedExpression_completes (s := s.next) fuel
      "Expect ';' or EOL after value." hb hr' hl' h hc hv
    refine ⟨c, hc', ?_⟩
    simp only [(kind_eq hr).trans hw, reduceCtorEq, ↓reduceIte, Kind.keyword.injEq]
    exact bind_of_ok hin
  | expression h =>
    obtain ⟨t, xs, rfl, ht⟩ := h.exists_head
    have hk : ∀ k, ¬ Begins k → s.cursor.kind ≠ k := by
      rintro k hk rfl
      exact hk (kind_eq hr ▸ ht)
    obtain ⟨c, hc', hin⟩ := endedExpression_completes fuel
      "Expect ';' or EOL after expression." hb hr hl h hc hv
    refine ⟨c, hc', ?_⟩
    simp only [hk _ (not_begins (.inl rfl)), hk _ (not_begins (.inr (.inl rfl))),
      hk _ (not_begins (.inr (.inr rfl))), ↓reduceIte]
    exact bind_of_ok hin

end Statements

/-! ### One statement after another -/

/-- Statements are read one after another, none of which is dropped. -/
inductive Run : State → List Stmt → State → Prop
  | nil (s : State) : Run s [] s
  | cons {s t u : State} {stmt : Stmt} {p : List Stmt} : s.cursor.kind ≠ .rightBrace →
      s.cursor.kind ≠ .endOfInput → statement s = .ok (some stmt) t → Run t p u →
      Run s (stmt :: p) u

theorem Run.steps {s t : State} {p : List Stmt} (h : Run s p t) : Steps s (p.map some) t := by
  induction h with
  | nil s => exact .nil s
  | cons _ he ho _ ih => exact .cons he ho ih

/-- The statements of a block are those up to its closing brace. -/
theorem blockItems_of_run {k fuel : Nat} {s t : State} {p : List Stmt} (h : Run s p t)
    (ht : t.cursor.kind = .rightBrace) (hk : s.cursor.left < k) (hf : s.cursor.left < fuel) :
    blockItems (statementWithin k) fuel s = .ok p t := by
  obtain ⟨fuel, rfl⟩ : ∃ i, fuel = i + 1 := ⟨fuel - 1, by omega⟩
  induction h generalizing fuel with
  | nil s => simp only [blockItems_run, ht, true_or, ↓reduceIte]
  | @cons s t u stmt p hb he ho _ ih =>
    have hlt := statementWithin_left_lt ho fun h => h.elim he fun h => hb h.1
    obtain ⟨fuel, rfl⟩ : ∃ i, fuel = i + 1 := ⟨fuel - 1, by omega⟩
    simp only [blockItems_run, hb, he, or_self, ↓reduceIte]
    rw [bind_of_ok ((statementWithin_eq hk).trans ho),
      bind_of_ok (ih ht (by omega) fuel (by omega))]
    rfl

theorem statement_of_over {s t : State} {stmt : Stmt}
    (h : statementOver (s.cursor.left + 1) (statementWithin s.cursor.left) s = .ok stmt t) :
    statement s = .ok (some stmt) t := by
  rw [statement_run, statementWithin, recovering_run, h]

/-- Declarations in front of a token that is no line end do not begin with one. -/
theorem declarations_head {b : Bool} {ts ws : List Token} {w : Token} {p : List Stmt}
    (h : Declarations b ts (w :: ws) p) (hw : w.kind ≠ .endOfLine) :
    ∃ t us, ts = t :: us ∧ t.kind ≠ .endOfLine := by
  cases h with
  | nil => exact ⟨w, ws, rfl, hw⟩
  | plain hs _ _ =>
    obtain ⟨t, us, rfl, ht⟩ := hs.exists_head
    exact ⟨t, _, rfl, fun h => not_opens (.inl h) (ht.imp_right (Or.imp_right .inr))⟩
  | block hl => exact ⟨_, _, rfl, by rw [hl]; decide⟩

/-- A block is read if the statements in it are. -/
theorem block_completes {s : State} {l r v : Token} {ls ts us vs : List Token} {items : List Stmt}
    (hd : 0 ≤ s.depth) (hr : s.cursor.rest = l :: (ls ++ ts)) (hl : l.kind = .leftBrace)
    (hls : LineEnds ls) (hts : ∃ t ts', ts = t :: ts' ∧ t.kind ≠ .endOfLine)
    (hin : ∀ o : State, o.cursor.rest = ts → 0 < o.depth →
      ∃ c : Cursor, c.rest = r :: us ∧ Run o items (o.moveTo c))
    (hrk : r.kind = .rightBrace) (hc : Closes true us (v :: vs)) (hv : v.kind ≠ .endOfLine) :
    ∃ c : Cursor, c.rest = v :: vs ∧ statement s = .ok (some (.block items)) (s.moveTo c) := by
  obtain ⟨t, ts, rfl, ht⟩ := hts
  have hend : l.kind ≠ .endOfInput := by rw [hl]; decide
  have hrend : r.kind ≠ .endOfInput := by rw [hrk]; decide
  have hleft := next_left hr hend
  -- inside the block, behind the line ends in front of its statements
  let o : State := s.next.opened.moveTo s.next.opened.cursor.skipLines
  have hdepth : 0 < o.depth := show 0 < s.depth + 1 by omega
  have ho : o.cursor.rest = t :: ts := skipLines_of_rest hls ht (next_rest hr hend)
  have holeft : o.cursor.left ≤ s.next.cursor.left := (Cursor.Leads.skipLines _).left_le
  obtain ⟨c, hc', hrun⟩ := hin o ho hdepth
  have hitems : blockItems (statementWithin s.cursor.left) (s.cursor.left + 1) o =
      .ok items (o.moveTo c) :=
    blockItems_of_run hrun ((kind_eq hc').trans hrk) (by omega) (by omega)
  have hbrace := expect_of_rest "Expect '\x7d' after block." (s := o.moveTo c) hc' hrend
  rw [hrk] at hbrace
  have hrest : (o.moveTo c).next.cursor.rest = us := next_rest (s := o.moveTo c) hc' hrend
  obtain ⟨d, hd', hterm⟩ := requireTerminator_of_closes (s := (o.moveTo c).next)
    "Expect statement terminator after block." (fun _ => hdepth) (by rw [hrest]; exact hc) hv
  have hbody : blockBody (s.cursor.left + 1) (statementWithin s.cursor.left) s.next.opened =
      .ok (.block items) ((o.moveTo c).next.moveTo d) := by
    rw [blockBody_run]
    exact (bind_of_ok hitems).trans ((bind_of_ok hbrace).trans (bind_of_ok hterm))
  have hclosed : ((o.moveTo c).next.moveTo d).closed = s.moveTo d := by
    simp only [State.closed, State.moveTo, State.next, State.opened, o, Int.add_sub_cancel]
  refine ⟨d, hd', statement_of_over ?_⟩
  simp only [statementOver_run, (kind_eq hr).trans hl, reduceCtorEq, ↓reduceIte, blockRest,
    insideBlock_run, hbody, hclosed]

/-- **Declarations of the grammar are read**, one after another. -/
theorem declarations_run {b : Bool} {ts ws : List Token} {p : List Stmt}
    (h : Declarations b ts ws p) {w : Token} {ws' : List Token} (hw : ws = w :: ws')
    (hwk : w.kind ≠ .endOfLine) {s : State} (hr : s.cursor.rest = ts)
    (hb : b = true → 0 < s.depth) (hd : 0 ≤ s.depth) :
    ∃ c : Cursor, c.rest = ws ∧ Run s p (s.moveTo c) := by
  induction h generalizing w ws' s with
  | nil => exact ⟨s.cursor, hr, .nil s⟩
  | @plain b ts us vs ws stmt p hs hc hp ih =>
    subst hw
    obtain ⟨v, vs, rfl, hv⟩ := declarations_head hp hwk
    obtain ⟨c, hc', hstmt⟩ := plain_completes (s.cursor.left + 1) hb hr (Nat.lt_succ_self _) hs hc hv
    obtain ⟨d, hd', hrun⟩ := ih rfl hwk (s := s.moveTo c) hc' hb hd
    obtain ⟨t, xs, rfl, ht⟩ := hs.exists_head
    have hopens : Opens s.cursor.kind := kind_eq hr ▸ ht.imp_right (Or.imp_right .inr)
    exact ⟨d, hd', .cons (fun h => not_opens (.inr (.inl h)) hopens)
      (fun h => not_opens (.inr (.inr h)) hopens) (statement_of_over hstmt) hrun⟩
  | @block b l r ls ts us vs ws items p hl hls hin hrk hc hp ih₁ ih₂ =>
    subst hw
    have hrne : r.kind ≠ .endOfLine := by rw [hrk]; decide
    have hlk := (kind_eq hr).trans hl
    obtain ⟨v, vs, rfl, hv⟩ := declarations_head hp hwk
    -- the parser takes the end of a block for one inside the block, which is no less
    have hc' : Closes true us (v :: vs) := by
      cases hc with
      | lines hne hls => exact .lines hne hls
      | semicolon ht hls => exact .semicolon ht hls
      | endOfInput ht => exact .endOfInput ht
      | brace _ ht => exact .brace rfl ht
    obtain ⟨c, hcr, hstmt⟩ := block_completes hd hr hl hls (declarations_head hin hrne)
      (fun o ho hdo => ih₁ rfl hrne ho (fun _ => hdo) (Int.le_of_lt hdo)) hrk hc' hv
    obtain ⟨d, hd', hrun⟩ := ih₂ rfl hwk (s := s.moveTo c) hcr hb hd
    exact ⟨d, hd', .cons (by rw [hlk]; decide) (by rw [hlk]; decide) hstmt hrun⟩

/-! ### Programs -/

/-- **Every program of the grammar is read** without an error. -/
theorem program_completes (budget : Nat) {tokens : List Token} {e : Token} {q : List Stmt}
    (he : e.kind = .endOfInput) (h : IsProgram (tokens ++ [e]) q) :
    Gives budget (tokens ++ [e]) (q.map some) [] := by
  obtain ⟨s, hs⟩ := exists_start tokens he {}
  obtain ⟨hrest, hd, hm, -⟩ := of_start hs
  rw [gives_iff_steps hs (budgetSpent_zero _)]
  generalize hts : tokens ++ [e] = ts at h
  obtain ⟨hls, he', hdecl⟩ := h
  rename_i ls ts e'
  have hne : e'.kind ≠ .endOfLine := by rw [he']; decide
  obtain ⟨t, us, rfl, ht⟩ := declarations_head hdecl hne
  have hbegun : s.begun.cursor.rest = t :: us := skipLines_of_rest hls ht (hrest.trans hts)
  obtain ⟨c, hc, hrun⟩ := declarations_run hdecl rfl hne hbegun (fun h => by cases h)
    (show 0 ≤ s.depth by omega)
  exact ⟨_, hrun.steps, (kind_eq hc).trans he', hm⟩

/-- **Exactly the programs of the grammar are read without an error**, whatever the budget.  Then
the entries are the trees of the only program that the tokens make up, without a gap, and they hold
the names, operators and values of the tokens in their order. -/
theorem reads_exactly_the_grammar (budget : Nat) (tokens : List Token) (e : Token)
    (hts : ∀ t ∈ tokens, t.kind ≠ .endOfInput) (he : e.kind = .endOfInput) :
    ∃ p ms, Gives budget (tokens ++ [e]) p ms ∧
      (ms = [] ↔ ∃ q, IsProgram (tokens ++ [e]) q) ∧
      ∀ q, IsProgram (tokens ++ [e]) q →
        (∀ q', IsProgram (tokens ++ [e]) q' → q' = q) ∧ p = q.map some ∧
          stmtsWords q = words (tokens ++ [e]) := by
  obtain ⟨p, ms, hp⟩ := exists_gives budget tokens he
  have hread : ∀ q, IsProgram (tokens ++ [e]) q → p = q.map some ∧ ms = [] := fun q hq =>
    hp.unique (program_completes budget he hq)
  refine ⟨p, ms, hp, ⟨?_, fun ⟨q, hq⟩ => (hread q hq).2⟩, fun q hq => ?_⟩
  · rintro rfl
    obtain ⟨q, -, hq⟩ := program_reads hts he hp
    exact ⟨q, hq⟩
  · refine ⟨fun q' hq' => ?_, (hread q hq).1, hq.words.symm⟩
    have hmap := (hread q' hq').1.symm.trans (hread q hq).1
    exact (List.map_inj_right fun _ _ h => Option.some.inj h).1 hmap

/-- Two declarations in one block: the closing brace ends the second, and the end of the input the
block. -/
theorem reads_exactly_a_block :
    let l : Token := ⟨.leftBrace, "\x7b", .nil, 1, 1⟩
    let x : Token := ⟨.identifier, "x", .nil, 1, 2⟩
    let line : Token := ⟨.endOfLine, "", .nil, 1, 3⟩
    let equals : Token := ⟨.equal, "=", .nil, 2, 2⟩
    let value : Token := ⟨.keyword .kNil, "nil", .nil, 2, 3⟩
    let r : Token := ⟨.rightBrace, "\x7d", .nil, 2, 4⟩
    let stop : Token := ⟨.endOfInput, "", .nil, 2, 5⟩
    Gives 1 [l, x, line, x, equals, value, r, stop]
      [some (.block [.expression (.reference x), .expression (.assign x (.literal .nil))])] [] := by
  intro l x line equals value r stop
  obtain ⟨p, ms, hp, hiff, hall⟩ :=
    reads_exactly_the_grammar 1 [l, x, line, x, equals, value, r] stop (by decide) rfl
  have hx : Derives (.binary .equality) [x] (.reference x) :=
    .operand (.operand (.operand (.operand (.primary (.reference rfl)))))
  have hvalue : Derives (.binary .equality) [value] (.literal .nil) :=
    .operand (.operand (.operand (.operand (.primary (.literal (.isNil rfl))))))
  have hline : Closes true [line, x, equals, value, r, stop] [x, equals, value, r, stop] :=
    @Closes.lines true [line] _ (by decide) (by simp [LineEnds, line])
  have hinside : Declarations true [x, line, x, equals, value, r, stop] [r, stop]
      [.expression (.reference x), .expression (.assign x (.literal .nil))] :=
    .plain (.expression (.equality hx)) hline
      (.plain (.expression (.assign rfl rfl (.equality hvalue))) (.brace rfl rfl) .nil)
  have hprogram : IsProgram [l, x, line, x, equals, value, r, stop]
      [.block [.expression (.reference x), .expression (.assign x (.literal .nil))]] :=
    @IsProgram.mk [] _ _ _ (by simp [LineEnds]) rfl
      (@Declarations.block false l r [] _ _ _ _ _ _ rfl (by simp [LineEnds]) hinside rfl
        (.endOfInput rfl) .nil)
  have hms := hiff.2 ⟨_, hprogram⟩
  have hentries := (hall _ hprogram).2.1
  rw [hms, hentries] at hp
  exact hp

end LoxFront.Parse
