import LoxFront.Proofs.Parse.Completeness

/-!
# Trees written as tokens

A tree is written with its own names and operators, a token for each literal, parentheses just where
the tree has them, and a semicolon behind every statement (`Expr.tokens`, `Stmt.tokens`).

Every tree that parsing gives, with or without errors, stands for the tokens that it is written with:
each level of expressions only gives trees of this level (`expressionWithin_yields`), also where an
assignment has been dropped for its target.  So a statement that has survived an error is read again
as the same statement (`surviving_statements_are_read_again`).
-/

namespace LoxFront

open Grammar

/-! ### Writing -/

/-- A token that is written, and stands nowhere in a source. -/
def Token.written (kind : Kind) (lexeme : String) : Token := ⟨kind, lexeme, .nil, 0, 0⟩

/-- The token of a literal. -/
def Literal.token : Literal → Token
  | .nil => .written (.keyword .kNil) "nil"
  | .bool true => .written (.keyword .kTrue) "true"
  | .bool false => .written (.keyword .kFalse) "false"
  | .number x => ⟨.number, (Literal.number x).spelling, .number x, 0, 0⟩
  | .integer n => ⟨.number, (Literal.integer n).spelling, .integer n, 0, 0⟩
  | .text s => ⟨.string, (Literal.text s).spelling, .text s, 0, 0⟩

/-- The tokens of an expression.  There are parentheses only where the tree has them. -/
def Expr.tokens : Expr → List Token
  | .literal v => [v.token]
  | .reference name => [name]
  | .assign name value => name :: .written .equal "=" :: value.tokens
  | .unary operator right => operator :: right.tokens
  | .binary left operator right => left.tokens ++ operator :: right.tokens
  | .group inner => .written .leftParen "(" :: (inner.tokens ++ [.written .rightParen ")"])

mutual

/-- The tokens of a statement, with a semicolon at its end. -/
def Stmt.tokens : Stmt → List Token
  | .expression e => e.tokens ++ [.written .semicolon ";"]
  | .print e => .written (.keyword .kPrint) "print" :: (e.tokens ++ [.written .semicolon ";"])
  | .declare name none =>
    [.written (.keyword .kVar) "var", name, .written .semicolon ";"]
  | .declare name (some e) =>
    .written (.keyword .kVar) "var" :: name :: .written .equal "=" ::
      (e.tokens ++ [.written .semicolon ";"])
  | .block items =>
    .written .leftBrace "\x7b" ::
      (Stmt.itemTokens items ++ [.written .rightBrace "\x7d", .written .semicolon ";"])

/-- The tokens of statements one after another. -/
def Stmt.itemTokens : List Stmt → List Token
  | [] => []
  | s :: rest => s.tokens ++ Stmt.itemTokens rest

end

namespace Parse

variable {α β : Type}

/-! ### What steps give -/

/-- Whatever a step gives is in `P`. -/
def Yields (x : Action α) (P : α → Prop) : Prop := ∀ s a t, x s = .ok a t → P a

namespace Yields

variable {x : Action α} {f : α → Action β} {P : α → Prop} {Q : β → Prop}

theorem pure {a : α} (h : P a) : Yields (pure a : Action α) P := by
  rintro s b t hb
  cases hb
  exact h

theorem throw (e : Exit) : Yields (throw e : Action α) P := fun _ _ _ h => by cases h

theorem bind (hx : Yields x P) (hf : ∀ a, P a → Yields (f a) Q) : Yields (x >>= f) Q := by
  intro s b u h
  obtain ⟨a, t, ha, hb⟩ := bind_ok.1 h
  exact hf a (hx s a t ha) t b u hb

/-- Whatever a step does that gives nothing of interest. -/
theorem after (x : Action α) (hf : ∀ a, Yields (f a) Q) : Yields (x >>= f) Q := by
  intro s b u h
  obtain ⟨a, t, -, hb⟩ := bind_ok.1 h
  exact hf a t b u hb

theorem takeIf (test : Kind → Bool) :
    Yields (takeIf test) fun o => ∀ t, o = some t → test t.kind = true := by
  rintro s o t h tok rfl
  obtain ⟨⟨-, hk⟩, rfl, -⟩ := takeIf_some.1 h
  exact hk

theorem failHere (rule : Rule) (message : String) : Yields (failHere rule message) P :=
  fun _ _ _ h => absurd h (failHere_ne_ok _ _ _ _ _)

theorem expect (kind : Kind) (message : String) :
    Yields (expect kind message) fun t => t.kind = kind :=
  fun _ _ _ h => (expect_ok h).2.1

end Yields

/-! ### Expressions -/

/-- An expression of a level stands for the tokens that it is written with. -/
def Written (l : Level) (e : Expr) : Prop := Derives l e.tokens e

theorem denotes_token (v : Literal) : Denotes v.token v := by
  cases v with
  | nil => exact .isNil rfl
  | bool b =>
    cases b
    · exact .isFalse rfl
    · exact .isTrue rfl
  | number x => exact .number rfl
  | integer n => exact .number rfl
  | text s => exact .string rfl

section Levels

variable {operand inner : Action Expr}

theorem primary_yields (hi : Yields inner (Written .assignment)) :
    Yields (primary inner) (Written .primary) := by
  refine (Yields.takeIf _).bind fun o ho => ?_
  cases o with
  | none => exact .failHere _ _
  | some tok =>
    intro s e t h
    rcases primaryFrom_ok h with ⟨v, -, rfl, -⟩ | ⟨hn, rfl, -⟩ | ⟨-, -, h⟩
    · exact .literal (denotes_token v)
    · exact .reference hn
    · refine hi.bind (fun e he => ?_) s e t h
      exact .after _ fun _ => .pure (.group rfl he rfl)

theorem prefixed_yields (ho : Yields operand (Written .primary)) (fuel : Nat) :
    Yields (prefixed operand fuel) (Written .unary) := by
  induction fuel with
  | zero => exact .throw _
  | succ fuel ih =>
    refine (Yields.takeIf _).bind fun o hop => ?_
    cases o with
    | none => exact fun s e t h => .primary (ho s e t h)
    | some tok =>
      have hneg := isPrefixOperator_iff.1 (hop tok rfl)
      exact ih.bind fun right hr => .pure (.unary hneg hr)

theorem chain_yields {b : BinaryLevel} (ho : Yields operand (Written (tighter b))) (fuel : Nat)
    {left : Expr} (hleft : Written (.binary b) left) :
    Yields (chain b operand fuel left) (Written (.binary b)) := by
  induction fuel generalizing left with
  | zero => exact .throw _
  | succ fuel ih =>
    refine (Yields.takeIf _).bind fun o hop => ?_
    cases o with
    | none => exact .pure hleft
    | some tok =>
      have hjoin := hasOperator_iff.1 (hop tok rfl)
      exact ho.bind fun right hr => ih (.operator hleft hjoin hr)

theorem binary_yields {b : BinaryLevel} (ho : Yields operand (Written (tighter b))) (fuel : Nat) :
    Yields (binary b fuel operand) (Written (.binary b)) :=
  ho.bind fun _ hleft => chain_yields ho fuel (.operand hleft)

theorem equalityLevel_yields (hi : Yields inner (Written .assignment)) (fuel : Nat) :
    Yields (equalityLevel fuel inner) (Written (.binary .equality)) :=
  equalityLevel_induction (P := fun l x => Yields x (Written l))
    (prefixed_yields (primary_yields hi) fuel) fun _ _ hx => binary_yields hx fuel

/-- An assignment is given only to a name; any other target is given back as it is. -/
theorem assignTo_yields {target value : Expr} (equals : Token)
    (ht : Written (.binary .equality) target) (hv : Written .assignment value) :
    Yields (assignTo target equals value) (Written .assignment) := by
  have hkeep : Written .assignment target := .equality ht
  cases target with
  | reference name => exact .pure (.assign ht.of_reference.2 rfl hv)
  | _ => exact .after _ fun _ => .pure hkeep

theorem assignments_yields (ho : Yields operand (Written (.binary .equality))) (fuel : Nat) :
    Yields (assignments operand fuel) (Written .assignment) := by
  induction fuel with
  | zero => exact .throw _
  | succ fuel ih =>
    refine ho.bind fun target ht => .after _ fun o => ?_
    cases o with
    | none => exact .pure (.equality ht)
    | some equals => exact ih.bind fun value hv => assignTo_yields equals ht hv

end Levels

/-- **Every expression stands for the tokens that it is written with**, whatever errors were
recorded while it was read. -/
theorem expressionWithin_yields (fuel : Nat) :
    Yields (expressionWithin fuel) (Written .assignment) := by
  induction fuel with
  | zero => exact .throw _
  | succ fuel ih => exact assignments_yields (equalityLevel_yields ih _) _

/-! ### Statements -/

/-- In front of declarations a statement stands for the tokens that it is written with. -/
def WrittenStmt (stmt : Stmt) : Prop :=
  ∀ b us ws p, Declarations b us ws p → Declarations b (stmt.tokens ++ us) ws (stmt :: p)

theorem closes_written (b : Bool) (us : List Token) :
    Closes b (.written .semicolon ";" :: us) us :=
  @Closes.semicolon b _ [] us rfl (by simp [LineEnds])

theorem writtenStmt_of_plain {stmt : Stmt} {ts : List Token} (h : Plain ts stmt)
    (hts : stmt.tokens = ts ++ [.written .semicolon ";"]) : WrittenStmt stmt := by
  intro b us ws p hp
  rw [hts, List.append_assoc]
  exact .plain h (closes_written b us) hp

theorem declarations_of_items {items : List Stmt} (h : ∀ stmt ∈ items, WrittenStmt stmt) (b : Bool)
    (us : List Token) : Declarations b (Stmt.itemTokens items ++ us) us items := by
  induction items with
  | nil => exact .nil
  | cons stmt items ih =>
    rw [Stmt.itemTokens, List.append_assoc]
    exact h stmt List.mem_cons_self _ _ _ _ (ih fun s hs => h s (List.mem_cons_of_mem _ hs))

theorem writtenStmt_block {items : List Stmt} (h : ∀ stmt ∈ items, WrittenStmt stmt) :
    WrittenStmt (.block items) := by
  intro b us ws p hp
  -- the closing brace comes first behind the items, so nothing is left for them to read
  have hin := declarations_of_items h true
    (.written .rightBrace "\x7d" :: .written .semicolon ";" :: us)
  have hblock := @Declarations.block b (.written .leftBrace "\x7b") _ [] _ _ _ _ _ _ rfl
    (by simp [LineEnds]) hin rfl (closes_written b us) hp
  simpa [Stmt.tokens] using hblock

theorem endedExpression_yields (fuel : Nat) (message : String) :
    Yields (endedExpression fuel message) (Written .assignment) :=
  (expressionWithin_yields fuel).bind fun _ he => .after _ fun _ => .pure he

theorem initialValue_yields (fuel : Nat) :
    Yields (initialValue fuel) fun o => ∀ e, o = some e → Written .assignment e := by
  refine .after _ fun o => ?_
  cases o with
  | none => exact .pure fun e h => by cases h
  | some t =>
    refine (expressionWithin_yields fuel).bind fun e he => .pure ?_
    rintro f hf
    cases hf
    exact he

theorem declarationRest_yields (fuel : Nat) : Yields (declarationRest fuel) WrittenStmt := by
  refine (Yields.expect _ _).bind fun name hn => (initialValue_yields fuel).bind fun initial hi =>
    .after _ fun _ => .pure ?_
  cases initial with
  | none => exact writtenStmt_of_plain (.declare rfl hn) rfl
  | some e => exact writtenStmt_of_plain (.initial rfl hn rfl (hi e rfl)) rfl

section Blocks

variable {item : Action (Option Stmt)}

theorem blockItems_yields (hi : Yields item fun o => ∀ stmt, o = some stmt → WrittenStmt stmt)
    (fuel : Nat) :
    Yields (blockItems item fuel) fun items => ∀ stmt ∈ items, WrittenStmt stmt := by
  induction fuel with
  | zero => exact .throw _
  | succ fuel ih =>
    intro s items t h
    rw [blockItems_run] at h
    split_ifs at h with hg
    · cases h
      exact fun _ h => by cases h
    · have hyields : Yields (item >>= fun o => blockItems item fuel >>= fun rest =>
          pure (o.toList ++ rest)) fun items => ∀ stmt ∈ items, WrittenStmt stmt := by
        refine hi.bind fun o ho => ih.bind fun rest hrest => .pure fun stmt hmem => ?_
        rcases List.mem_append.1 hmem with hmem | hmem
        · exact ho stmt (Option.mem_toList.1 hmem)
        · exact hrest stmt hmem
      exact hyields s items t h

theorem blockBody_yields (hi : Yields item fun o => ∀ stmt, o = some stmt → WrittenStmt stmt)
    (fuel : Nat) : Yields (blockBody fuel item) WrittenStmt :=
  .after _ fun _ => (blockItems_yields hi fuel).bind fun _ hitems =>
    .after _ fun _ => .after _ fun _ => .pure (writtenStmt_block hitems)

theorem insideBlock_yields {x : Action α} {P : α → Prop} (hx : Yields x P) :
    Yields (insideBlock x) P := by
  intro s a t h
  rw [insideBlock_run] at h
  cases hr : x s.opened with
  | ok b u =>
    rw [hr] at h
    cases h
    exact hx _ _ _ hr
  | error e u =>
    rw [hr] at h
    cases h

theorem statementOver_yields (hi : Yields item fun o => ∀ stmt, o = some stmt → WrittenStmt stmt)
    (fuel : Nat) : Yields (statementOver fuel item) WrittenStmt := by
  intro s stmt t h
  rw [statementOver_run] at h
  split_ifs at h with hv hp hb
  · exact declarationRest_yields fuel _ _ _ h
  · obtain ⟨e, u, he, hr⟩ := bind_ok.1 h
    cases hr
    exact writtenStmt_of_plain (.print rfl (endedExpression_yields fuel _ _ _ _ he)) rfl
  · exact insideBlock_yields (blockBody_yields hi fuel) _ _ _ h
  · obtain ⟨e, u, he, hr⟩ := bind_ok.1 h
    cases hr
    exact writtenStmt_of_plain (.expression (endedExpression_yields fuel _ _ _ _ he)) rfl

end Blocks

/-- **Every statement that is read stands for the tokens that it is written with.** -/
theorem statementWithin_yields (fuel : Nat) :
    Yields (statementWithin fuel) fun o => ∀ stmt, o = some stmt → WrittenStmt stmt := by
  induction fuel with
  | zero => exact .throw _
  | succ fuel ih =>
    rintro s o t h stmt rfl
    rw [statementWithin, recovering_run] at h
    cases hr : statementOver (fuel + 1) (statementWithin fuel) s with
    | ok stmt' u =>
      rw [hr] at h
      cases h
      exact statementOver_yields ih _ _ _ _ hr
    | error e u =>
      rw [hr] at h
      cases e <;> cases h

/-! ### Programs -/

theorem entries_yields (budget fuel : Nat) :
    Yields (entries budget fuel) fun p => ∀ stmt, some stmt ∈ p → WrittenStmt stmt := by
  induction fuel with
  | zero => exact .throw _
  | succ fuel ih =>
    intro s p t h
    rw [entries_run] at h
    split_ifs at h with hk
    · cases h
      exact fun _ h => by cases h
    cases ho : statement s with
    | error e u => rw [ho] at h; cases h
    | ok o u =>
      have hstmt : ∀ stmt, o = some stmt → WrittenStmt stmt := statementWithin_yields _ _ _ _ ho
      simp only [ho] at h
      split_ifs at h with hb
      · cases h
        exact fun stmt hmem => hstmt stmt (List.mem_singleton.1 hmem).symm
      · obtain ⟨rest, v, hrest, hv⟩ := bind_ok.1 h
        cases hv
        intro stmt hmem
        rcases List.mem_cons.1 hmem with hmem | hmem
        · exact hstmt stmt hmem.symm
        · exact ih _ _ _ hrest stmt hmem

theorem written_of_gives {budget : Nat} {tokens : List Token} {p : Program} {ms : List Mismatch}
    (h : Gives budget tokens p ms) {stmt : Stmt} (hmem : some stmt ∈ p) : WrittenStmt stmt := by
  obtain ⟨s, t, -, hp, -⟩ := h
  rw [program_run] at hp
  split at hp
  · cases hp
  · rename_i q u hq
    cases hp
    exact entries_yields _ _ _ _ _ hq stmt hmem

/-- **A statement that survives is read again as it is.**  Whatever errors there are among the tokens,
and whatever the budget, each statement in the entries is a program of its own when it is written as
tokens, and this program is read without an error as the same statement. -/
theorem surviving_statements_are_read_again (budget budget' : Nat) (tokens : List Token)
    (e e' : Token) (he : e.kind = .endOfInput) (he' : e'.kind = .endOfInput) :
    ∃ p ms, Gives budget (tokens ++ [e]) p ms ∧
      ∀ stmt, some stmt ∈ p → Gives budget' (stmt.tokens ++ [e']) [some stmt] [] := by
  obtain ⟨p, ms, hp⟩ := exists_gives budget tokens he
  refine ⟨p, ms, hp, fun stmt hmem => ?_⟩
  have hdecl := written_of_gives hp hmem false [e'] [e'] [] .nil
  have hprogram : IsProgram (stmt.tokens ++ [e']) [stmt] :=
    @IsProgram.mk [] _ _ _ (by simp [LineEnds]) he' hdecl
  exact program_completes budget' he' hprogram

/-- Of an assignment to a sum the sum is left, which is read again. -/
theorem a_rejected_target_is_read_again :
    let x : Token := ⟨.identifier, "x", .nil, 1, 1⟩
    let plus : Token := ⟨.plus, "+", .nil, 1, 2⟩
    let equals : Token := ⟨.equal, "=", .nil, 1, 3⟩
    let stop : Token := ⟨.endOfInput, "", .nil, 1, 5⟩
    let sum : Stmt := .expression (.binary (.reference x) plus (.reference x))
    Gives 0 [x, plus, x, equals, x, stop] [some sum] [.invalidAssignment equals] ∧
      Gives 0 (sum.tokens ++ [stop]) [some sum] [] := by
  intro x plus equals stop sum
  obtain ⟨p, ms, hp, hall⟩ :=
    surviving_statements_are_read_again 0 0 [x, plus, x, equals, x] stop stop rfl rfl
  have hrun : Gives 0 [x, plus, x, equals, x, stop] [some sum] [.invalidAssignment equals] :=
    ⟨_, _, rfl, rfl, rfl⟩
  obtain ⟨rfl, rfl⟩ := hp.unique hrun
  exact ⟨hrun, hall sum List.mem_cons_self⟩

end Parse

end LoxFront
