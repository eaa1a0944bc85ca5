import LoxFront.Proofs.Parse.Rounds
import LoxFront.Proofs.Token.Stream
import Mathlib.Data.List.Perm.Subperm

/-!
# No error leads to another one

While tokens are taken, errors are recorded at different ones of them, and in their order, except
that a rejected assignment is recorded behind its value (`Orderly`).  A run that gives a value has
left the last error behind (`Clean`).  A run that fails has one error more, at the token under the
cursor (`Held`), and recovery takes that token too, unless it is stuck there: at the end of the input,
or at the closing brace of the block, which the block then takes (`statementWithin_rests`).

At the end of the input one more error may come up for each open block, and nothing else.  So the
errors in a text are at different places, one behind the other (`errors_do_not_cascade`).
-/

namespace LoxFront.Parse

/-! ### Errors at the tokens that are taken -/

/-- The errors `l` are at different ones of the tokens, and those that are not rejected assignments
are in the order of these. -/
structure Orderly (taken : List Token) (l : List Mismatch) : Prop where
  distinct : (l.map Mismatch.token).Subperm taken
  ordered : ((l.filter (·.rule ≠ .assignment)).map Mismatch.token).Sublist taken

namespace Orderly

variable {ts us : List Token} {l k : List Mismatch}

theorem nil (ts : List Token) : Orderly ts [] := ⟨List.nil_subperm, List.nil_sublist _⟩

theorem append (h : Orderly ts l) (h' : Orderly us k) : Orderly (ts ++ us) (l ++ k) := by
  refine ⟨?_, ?_⟩
  · rw [List.map_append]
    exact h.distinct.append h'.distinct
  · rw [List.filter_append, List.map_append]
    exact h.ordered.append h'.ordered

/-- One more token is taken after an error at it. -/
theorem concat {m : Mismatch} (h : Orderly ts l) (hm : m.rule ≠ .assignment) :
    Orderly (ts ++ [m.token]) (l ++ [m]) :=
  h.append ⟨List.Subperm.refl _, by simp [hm]⟩

/-- An assignment is rejected at its equals sign behind the errors in its value. -/
theorem rejected (equals : Token) (h : Orderly ts l) :
    Orderly (equals :: ts) (l ++ [.invalidAssignment equals]) := by
  refine ⟨?_, ?_⟩
  · rw [List.map_append]
    exact (List.perm_append_comm.subperm).trans ((List.subperm_cons equals).2 h.distinct)
  · rw [List.filter_append, List.map_append]
    simpa [Mismatch.invalidAssignment] using h.ordered.cons equals

end Orderly

/-- From one state to the other the tokens `ts` are taken, and the errors `l` recorded. -/
structure Passes (s t : State) (ts : List Token) (l : List Mismatch) : Prop where
  tokens : s.cursor.rest = ts ++ t.cursor.rest
  inside : ∀ x ∈ ts, x.kind ≠ .endOfInput
  errors : t.mismatches = s.mismatches ++ l

namespace Passes

variable {s t u : State} {ts us : List Token} {l k : List Mismatch}

theorem refl (s : State) : Passes s s [] [] :=
  ⟨rfl, List.forall_mem_nil _, (List.append_nil _).symm⟩

theorem trans (h : Passes s t ts l) (h' : Passes t u us k) : Passes s u (ts ++ us) (l ++ k) := by
  refine ⟨?_, List.forall_mem_append.2 ⟨h.inside, h'.inside⟩, ?_⟩
  · rw [h.tokens, h'.tokens, List.append_assoc]
  · rw [h'.errors, h.errors, List.append_assoc]

theorem next (hk : s.cursor.kind ≠ .endOfInput) : Passes s s.next [s.cursor.current] [] :=
  ⟨(Cursor.rest_advance hk).1, by simpa using hk, (List.append_nil _).symm⟩

theorem reported (m : Mismatch) (h : Passes s t ts l) : Passes s (t.reported m) ts (l ++ [m]) := by
  refine ⟨h.tokens, h.inside, ?_⟩
  rw [State.mismatches_reported, h.errors, List.append_assoc]

end Passes

/-- All errors are behind the cursor, at tokens that have been taken. -/
def Clean (s t : State) : Prop := ∃ ts l, Passes s t ts l ∧ Orderly ts l

/-- The error that a block is not closed, at a token. -/
def unclosed (t : Token) : Mismatch := ⟨.token, "Expect '\x7d' after block.", t⟩

/-- The last error is at the token under the cursor.  If that is the end of the input, there may be
open blocks behind it. -/
def Held (s t : State) : Prop :=
  ∃ ts l m es, Passes s t ts (l ++ m :: es) ∧ Orderly ts l ∧ m.token = t.cursor.current ∧
    m.rule ≠ .assignment ∧ ∀ e ∈ es, e = unclosed t.cursor.current ∧ t.cursor.kind = .endOfInput

/-- All errors are behind the cursor, or it is stuck at the last one. -/
def Rests (s t : State) : Prop := Clean s t ∨ Held s t ∧ t.cursor.Stuck t.depth

/-- A run that leaves early for a mismatch is held there. -/
def Fails (s : State) (e : Exit) (t : State) : Prop := ∀ m, e = .mismatch m → Held s t

variable {s t u : State}

theorem Clean.refl (s : State) : Clean s s := ⟨[], [], .refl s, .nil _⟩

theorem Clean.trans (h : Clean s t) (h' : Clean t u) : Clean s u := by
  obtain ⟨ts, l, hp, ho⟩ := h
  obtain ⟨us, k, hp', ho'⟩ := h'
  exact ⟨ts ++ us, l ++ k, hp.trans hp', ho.append ho'⟩

/-- Nothing but the cursor and the errors matters. -/
theorem Passes.congr {ts : List Token} {l : List Mismatch} (h : Passes s t ts l)
    (hc : u.cursor = t.cursor) (hm : u.mismatches = t.mismatches) : Passes s u ts l :=
  ⟨hc ▸ h.tokens, h.inside, hm.trans h.errors⟩

theorem Clean.congr (h : Clean s t) (hc : u.cursor = t.cursor)
    (hm : u.mismatches = t.mismatches) : Clean s u := by
  obtain ⟨ts, l, hp, ho⟩ := h
  exact ⟨ts, l, hp.congr hc hm, ho⟩

theorem Held.congr (h : Held s t) (hc : u.cursor = t.cursor)
    (hm : u.mismatches = t.mismatches) : Held s u := by
  obtain ⟨ts, l, m, es, hp, ho, hm'⟩ := h
  exact ⟨ts, l, m, es, hp.congr hc hm, ho, hc ▸ hm'⟩

theorem Clean.block (h : Clean s.opened t) : Clean s t.closed := by
  obtain ⟨ts, l, ⟨htok, hin, herr⟩, ho⟩ := h
  exact ⟨ts, l, ⟨htok, hin, herr⟩, ho⟩

theorem Held.block (h : Held s.opened t) : Held s t.closed := by
  obtain ⟨ts, l, m, es, ⟨htok, hin, herr⟩, ho⟩ := h
  exact ⟨ts, l, m, es, ⟨htok, hin, herr⟩, ho⟩

theorem Clean.next (hk : s.cursor.kind ≠ .endOfInput) : Clean s s.next :=
  ⟨_, [], .next hk, .nil _⟩

theorem Clean.trans_held (h : Clean s t) (h' : Held t u) : Held s u := by
  obtain ⟨ts, l, hp, ho⟩ := h
  obtain ⟨us, k, m, es, hp', ho', hm⟩ := h'
  exact ⟨ts ++ us, l ++ k, m, es, by rw [List.append_assoc]; exact hp.trans hp', ho.append ho', hm⟩

theorem Clean.trans_rests (h : Clean s t) (h' : Rests t u) : Rests s u :=
  h'.imp h.trans fun ⟨hh, hs⟩ => ⟨h.trans_held hh, hs⟩

/-- One more error at the token under the cursor. -/
theorem Clean.reported (h : Clean s t) (rule : Rule) (message : String) (hr : rule ≠ .assignment) :
    Held s (t.reported ⟨rule, message, t.cursor.current⟩) := by
  obtain ⟨ts, l, hp, ho⟩ := h
  exact ⟨ts, l, _, [], hp.reported _, ho, rfl, hr, List.forall_mem_nil _⟩

/-- Away from the end of the input there is one error at the token under the cursor, which is left
behind when that is taken. -/
theorem Held.clean_next (h : Held s t) (hk : t.cursor.kind ≠ .endOfInput) : Clean s t.next := by
  obtain ⟨ts, l, m, es, hp, ho, hm, hr, hes⟩ := h
  obtain rfl : es = [] := List.eq_nil_iff_forall_not_mem.2 fun e he => hk (hes e he).2
  refine ⟨ts ++ [t.cursor.current], l ++ [m], ?_, hm ▸ ho.concat hr⟩
  simpa using hp.trans (.next hk)

/-- At the end of the input one more block is not closed. -/
theorem Rests.unclosed (h : Rests s t) (hk : t.cursor.kind = .endOfInput) :
    Held s (t.reported (unclosed t.cursor.current)) := by
  rcases h with h | ⟨⟨ts, l, m, es, hp, ho, hm, hr, hes⟩, -⟩
  · exact h.reported .token _ (by decide)
  · refine ⟨ts, l, m, es ++ [Parse.unclosed t.cursor.current], ?_, ho, hm, hr, ?_⟩
    · simpa using hp.reported (Parse.unclosed t.cursor.current)
    · refine List.forall_mem_append.2 ⟨hes, ?_⟩
      simpa using ⟨rfl, hk⟩

/-! ### Inside of a statement -/

/-- **What is read inside of a statement** leaves its errors behind, or fails at the last one. -/
theorem keptInside_clean : KeptInside Clean Fails where
  refl := .refl
  trans := .trans
  next _ := .next
  rejected hs h _ := by
    obtain ⟨ts, l, hp, ho⟩ := h
    have hpass := (Passes.next (by rw [hs]; decide)).trans hp
    exact ⟨_, _, hpass.reported _, ho.rejected _⟩
  after h hf m he := h.trans_held (hf m he)
  failed rule message s hr _ _ := (Clean.refl s).reported rule message hr
  stopped _ _ _ _ he := by cases he
  endless _ _ he := by cases he

/-! ### Recovery -/

/-- Recovery leaves the last error behind, or is stuck there. -/
theorem Held.rests_resumed (h : Held s t) : Rests s t.resumed := by
  have hm := State.mismatches_resumed t
  by_cases hs : t.cursor.Stuck t.depth
  · have hc : t.resumed.cursor = t.cursor := Cursor.resume_of_stuck hs
    refine .inr ⟨h.congr hc hm, ?_⟩
    show t.resumed.cursor.Stuck t.depth
    rwa [hc]
  · have hnext := h.clean_next fun hk => hs (.inl hk)
    have hmove := keptInside_clean.moveTo t.next (Cursor.Leads.advance_resume hs)
    exact .inl ((hnext.trans hmove).congr rfl hm)

theorem recovering_rests {x : Action Stmt} (hx : Keeps Clean Fails x) :
    Keeps Rests Fails (recovering x) := by
  intro s
  rw [recovering_run]
  cases ho : x s with
  | ok a t => exact .inl (hx.ok ho)
  | error e t =>
    cases e with
    | mismatch m => exact (hx.error ho m rfl).rests_resumed
    | interrupted => exact hx.error ho
    | endless => exact hx.error ho

/-! ### Blocks -/

section Blocks

variable {item : Action (Option Stmt)}

/-- Where the statements of a block end. -/
def AtBlockEnd (t : State) : Prop := t.cursor.kind = .rightBrace ∨ t.cursor.kind = .endOfInput

/-- The statements of a block rest where they end. -/
theorem blockItems_rests (hi : Keeps Rests Fails item) (fuel : Nat) :
    Keeps (fun s t => Rests s t ∧ AtBlockEnd t) Fails (blockItems item fuel) := by
  induction fuel with
  | zero => exact keptInside_clean.endless
  | succ fuel ih =>
    intro s
    rw [blockItems_run]
    split_ifs with hend
    · exact ⟨.inl (.refl s), hend⟩
    cases ho : item s with
    | error e t =>
      rw [bind_of_error ho]
      exact hi.error ho
    | ok o t =>
      rw [bind_of_ok ho]
      rcases hi.ok ho with hclean | ⟨hheld, hstuck⟩
      · cases hrest : blockItems item fuel t with
        | error e u =>
          rw [bind_of_error hrest]
          exact fun m hm => hclean.trans_held (ih.error hrest m hm)
        | ok items u =>
          rw [bind_of_ok hrest]
          exact ⟨hclean.trans_rests (ih.ok hrest).1, (ih.ok hrest).2⟩
      -- the statement is stuck at its error, and there the statements of the block end
      · have hend' : t.cursor.kind = .rightBrace ∨ t.cursor.kind = .endOfInput :=
          hstuck.symm.imp_left And.left
        cases fuel with
        | zero =>
          show Fails s .endless t
          exact fun _ h => by cases h
        | succ fuel =>
          have hrest : blockItems item (fuel + 1) t = .ok [] t := by
            rw [blockItems_run, if_pos hend']
          rw [bind_of_ok hrest]
          exact ⟨.inr ⟨hheld, hstuck⟩, hend'⟩

/-- Behind the statements of a block its closing brace is taken, or the block is not closed. -/
theorem blockEnd_clean (h : Rests s t) (hend : AtBlockEnd t) (items : List Stmt) :
    (∀ a u, blockEnd items t = .ok a u → Clean s u) ∧
      ∀ e u, blockEnd items t = .error e u → Fails s e u := by
  have hrun := blockEnd_run items t
  by_cases hb : t.cursor.kind = .rightBrace
  · rw [if_pos hb] at hrun
    have hk : t.cursor.kind ≠ .endOfInput := by rw [hb]; decide
    rw [hrun]
    have hnext : Clean s t.next := h.elim (·.trans (.next hk)) (·.1.clean_next hk)
    refine keptInside_clean.behind ?_ hnext
    exact keptInside_clean.bind (keptInside_clean.requireTerminator _) fun _ =>
      keptInside_clean.pure _
  · rw [if_neg hb, failHere_run, fail_run] at hrun
    rw [hrun]
    refine ⟨fun _ _ hu => (by cases hu), fun e u hu => ?_⟩
    cases hu
    exact fun _ _ => h.unclosed (hend.resolve_left hb)

theorem blockBody_clean (hi : Keeps Rests Fails item) (fuel : Nat) :
    Keeps Clean Fails (blockBody fuel item) := by
  intro s
  have hbegun : Clean s s.begun := keptInside_clean.moveTo s (.skipLines _)
  have hitems := blockItems_rests hi fuel
  rw [blockBody_run]
  cases ho : blockItems item fuel s.begun with
  | error e t =>
    rw [bind_of_error ho]
    exact fun m hm => hbegun.trans_held (hitems.error ho m hm)
  | ok items t =>
    rw [bind_of_ok ho]
    obtain ⟨hrests, hend⟩ := hitems.ok ho
    obtain ⟨hok, herr⟩ := blockEnd_clean (hbegun.trans_rests hrests) hend items
    cases hu : blockEnd items t with
    | ok stmt u => exact hok stmt u hu
    | error e u => exact herr e u hu

theorem blockRest_clean (hi : Keeps Rests Fails item) (fuel : Nat) :
    Keeps Clean Fails (blockRest fuel item) := by
  intro s
  rw [blockRest, insideBlock_run]
  cases ho : blockBody fuel item s.opened with
  | ok a t => exact ((blockBody_clean hi fuel).ok ho).block
  | error e t => exact fun m hm => ((blockBody_clean hi fuel).error ho m hm).block

end Blocks

/-- **A statement leaves its errors behind**, or rests at the last one where it is stuck. -/
theorem statementWithin_rests (fuel : Nat) : Keeps Rests Fails (statementWithin fuel) := by
  induction fuel with
  | zero => exact keptInside_clean.endless
  | succ fuel ih =>
    exact recovering_rests (keptInside_clean.statementOver_of_blockRest (blockRest_clean ih _))

/-! ### Programs -/

/-- Outside of all blocks only the end of the input holds an error. -/
theorem Rests.clean_or_end (h : Rests s t) (hd : t.depth ≤ 0) :
    Clean s t ∨ Held s t ∧ t.cursor.kind = .endOfInput := by
  refine h.imp_right fun ⟨hheld, hstuck⟩ => ⟨hheld, ?_⟩
  rcases hstuck with hk | ⟨-, hpos⟩
  · exact hk
  · omega

/-- Entries leave their errors behind, or end at the last one. -/
theorem entries_clean_or_end (budget : Nat) {fuel : Nat} {p : Program} (hd : s.depth ≤ 0)
    (h : entries budget fuel s = .ok p t) :
    Clean s t ∨ Held s t ∧ t.cursor.kind = .endOfInput := by
  induction fuel generalizing s p with
  | zero => cases h
  | succ fuel ih =>
    rw [entries_run] at h
    split_ifs at h with hk
    · cases h
      exact .inl (.refl _)
    cases ho : statement s with
    | error e u => rw [ho] at h; cases h
    | ok o u =>
      have hdu := (kept_follows.statement.ok ho).depth
      have hu := Rests.clean_or_end ((statementWithin_rests _).ok ho) (by omega)
      simp only [ho] at h
      split_ifs at h with hb
      · cases h
        have hm := State.mismatches_stopped u
        exact hu.imp (·.congr rfl hm) fun h => ⟨h.1.congr rfl hm, h.2⟩
      obtain ⟨rest, v, hrest, hv⟩ := bind_ok.1 h
      cases hv
      rcases hu with hclean | ⟨hheld, hend⟩
      · exact (ih (by omega) hrest).imp hclean.trans fun h => ⟨hclean.trans_held h.1, h.2⟩
      -- at the end of the input there are no more entries
      · cases fuel with
        | zero => cases hrest
        | succ fuel =>
          rw [entries_run, if_pos hend] at hrest
          cases hrest
          exact .inr ⟨hheld, hend⟩

theorem program_clean_or_end {budget : Nat} {p : Program} (hd : s.depth ≤ 0)
    (h : program budget s = .ok p t) :
    Clean s t ∨ Held s t ∧ t.cursor.kind = .endOfInput := by
  rw [program_run] at h
  split at h
  · cases h
  rename_i q u hu
  cases h
  have hbegun : Clean s s.begun := keptInside_clean.moveTo s (.skipLines _)
  have hm := State.mismatches_finished p.length u.mismatches.length u
  refine (entries_clean_or_end budget (s := s.begun) hd hu).imp ?_ ?_
  · exact fun h => (hbegun.trans h).congr rfl hm
  · exact fun h => ⟨(hbegun.trans_held h.1).congr rfl hm, h.2⟩

/-- The errors of a program: those at tokens that are taken, and those at the end of the input, of
which all but one say that a block is not closed. -/
theorem program_errors {budget : Nat} {p : Program} (hd : s.depth ≤ 0)
    (h : program budget s = .ok p t) :
    ∃ ts l es, Passes s t ts (l ++ es) ∧ Orderly ts l ∧
      (∀ e ∈ es, e.token = t.cursor.current ∧ t.cursor.kind = .endOfInput) ∧
        (es.filter (·.message ≠ "Expect '\x7d' after block.")).length ≤ 1 := by
  rcases program_clean_or_end hd h with ⟨ts, l, hp, ho⟩ | ⟨⟨ts, l, m, es, hp, ho, hm, -, hes⟩, hend⟩
  · exact ⟨ts, l, [], by rwa [List.append_nil], ho, List.forall_mem_nil _, Nat.zero_le 1⟩
  · have hnone : es.filter (·.message ≠ "Expect '\x7d' after block.") = [] := by
      refine List.filter_eq_nil_iff.2 fun e he => ?_
      rw [(hes e he).1]
      simp [unclosed]
    refine ⟨ts, l, m :: es, hp, ho, List.forall_mem_cons.2 ⟨⟨hm, hend⟩, fun e he => ?_⟩, ?_⟩
    · rw [(hes e he).1]
      exact ⟨rfl, hend⟩
    · rw [List.filter_cons, hnone]
      split <;> simp

/-- Every error is at a token. -/
theorem token_mem_of_program {budget : Nat} {p : Program} {m : Mismatch} (hd : s.depth ≤ 0)
    (hs : s.mismatches = []) (h : program budget s = .ok p t) (hm : m ∈ t.mismatches) :
    m.token ∈ s.cursor.rest := by
  obtain ⟨ts, l, es, hp, ho, hes, -⟩ := program_errors hd h
  rw [hp.errors, hs, List.nil_append] at hm
  rw [hp.tokens]
  rcases List.mem_append.1 hm with hl | he
  · exact List.mem_append_left _ (ho.distinct.subset (List.mem_map_of_mem hl))
  · rw [(hes m he).1]
    exact List.mem_append_right _ List.mem_cons_self

/-- No error leads to another one: those before the end of the input, `ms`, are at different tokens,
those that are not rejected assignments one behind the other; of those at the end of the input, `es`,
all but one say that a block is not closed. -/
structure Separate (ms es : List Mismatch) : Prop where
  inside : ∀ m ∈ ms, m.token.kind ≠ .endOfInput
  atEnd : ∀ e ∈ es, e.token.kind = .endOfInput
  distinct : (ms.map Mismatch.token).Nodup
  ordered : ((ms.filter (·.rule ≠ .assignment)).map Mismatch.token).Pairwise Token.Before
  once : (es.filter (·.message ≠ "Expect '\x7d' after block.")).length ≤ 1

theorem Orderly.separate {taken : List Token} {l es : List Mismatch} (h : Orderly taken l)
    (hin : ∀ t ∈ taken, t.kind ≠ .endOfInput) (hpair : taken.Pairwise Token.Before)
    (hend : ∀ e ∈ es, e.token.kind = .endOfInput)
    (honce : (es.filter (·.message ≠ "Expect '\x7d' after block.")).length ≤ 1) :
    Separate l es where
  inside _ hm := hin _ (h.distinct.subset (List.mem_map_of_mem hm))
  atEnd := hend
  distinct := by
    obtain ⟨us, hperm, hsub⟩ := h.distinct
    exact hperm.nodup_iff.1 ((hpair.imp Token.Before.ne).sublist hsub)
  ordered := hpair.sublist h.ordered
  once := honce

/-- **One error at a time.**  In a text that is made of tokens, and with any budget, no token but the
end of the input has two errors; those that are not rejected assignments are in the order of the text;
and at the end of the input nothing but open blocks is reported, except for one error. -/
theorem errors_do_not_cascade {text : List Char} {tokens : List Token}
    (h : Token.scan text = .ok tokens) (budget : Nat) :
    ∃ p ms es, Gives budget tokens p (ms ++ es) ∧ Separate ms es := by
  obtain ⟨ts, rfl, -, hpair⟩ := Lexical.tokens_of_scan h
  obtain ⟨p, ms, s, t, hs, hp, -⟩ := exists_gives budget ts (e := Lexical.endToken text) rfl
  obtain ⟨hrest, hd, hm, -⟩ := of_start hs
  have hgives : Gives budget (ts ++ [Lexical.endToken text]) p t.mismatches := ⟨s, t, hs, hp, rfl⟩
  obtain ⟨taken, l, es, hpass, ho, hes, honce⟩ := program_errors (by omega) hp
  rw [hpass.errors, hm, List.nil_append] at hgives
  rw [← hrest, hpass.tokens] at hpair
  refine ⟨p, l, es, hgives, ho.separate hpass.inside (List.pairwise_append.1 hpair).1 ?_ honce⟩
  intro e he
  rw [(hes e he).1]
  exact (hes e he).2

/-- A rejected assignment, and behind it a block in which the end of the input comes too early. -/
theorem reports_on_an_open_block :
    let text := "(a)=b\n\x7bc=".toList
    let tokens : List Token :=
      [⟨.leftParen, "(", .nil, 1, 1⟩, ⟨.identifier, "a", .nil, 1, 2⟩, ⟨.rightParen, ")", .nil, 1, 3⟩,
        ⟨.equal, "=", .nil, 1, 4⟩, ⟨.identifier, "b", .nil, 1, 5⟩, ⟨.endOfLine, "\n", .nil, 1, 6⟩,
        ⟨.leftBrace, "\x7b", .nil, 2, 1⟩, ⟨.identifier, "c", .nil, 2, 2⟩, ⟨.equal, "=", .nil, 2, 3⟩,
        ⟨.endOfInput, "", .nil, 2, 4⟩]
    let equals : Token := ⟨.equal, "=", .nil, 1, 4⟩
    let stop : Token := ⟨.endOfInput, "", .nil, 2, 4⟩
    Token.scan text = .ok tokens ∧ ∃ p ms es, Gives 0 tokens p (ms ++ es) ∧ Separate ms es ∧
      ms ++ es =
        [.invalidAssignment equals, ⟨.expression, "Expect expression.", stop⟩, unclosed stop] := by
  intro text tokens equals stop
  have hscan : Token.scan text = .ok tokens := by decide +kernel
  obtain ⟨p, ms, es, hp, hms⟩ := errors_do_not_cascade hscan 0
  have hgives : Gives 0 tokens _
      [.invalidAssignment equals, ⟨.expression, "Expect expression.", stop⟩, unclosed stop] :=
    ⟨_, _, rfl, rfl, rfl⟩
  exact ⟨hscan, p, ms, es, hp, hms, (hp.unique hgives).2⟩

end LoxFront.Parse
