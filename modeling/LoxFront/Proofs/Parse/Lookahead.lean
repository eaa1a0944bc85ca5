import LoxFront.Proofs.Parse.Hook
import LoxFront.Proofs.Parse.Isolation

/-!
# One token of lookahead

Nothing behind the token under the cursor is looked at.  So a run that ends at some token does the same
over any other stream with the same tokens from where it began up to that one, that one included
(`OneAhead`): it gives the same value or leaves in the same way, records the same errors, and ends at
the same place.

Two runs over such streams go side by side (`lookahead`) until the first of them passes the last token
that both streams have.  A run that ends at that token has not passed it.  And an end-of-input token
is never passed, so the tokens behind the first one do not matter to a whole program
(`program_endAlike`).
-/

namespace LoxFront

/-! ### Streams -/

namespace Cursor

variable {c d : Cursor}

/-- The whole stream, before and behind the cursor. -/
def stream (c : Cursor) : List Token := c.passed.reverse ++ c.rest

theorem getElem?_stream (c : Cursor) (n : Nat) : c.stream[c.index + n]? = c.rest[n]? := by
  rw [stream, index, ← List.length_reverse, List.getElem?_append_right (Nat.le_add_right _ _),
    Nat.add_sub_cancel_left]

/-- Moves do not change the stream. -/
theorem Leads.stream_eq (h : c.Leads d) : d.stream = c.stream := by
  obtain ⟨taken, -, hr, hp⟩ := h.exists_taken
  rw [stream, stream, hr, hp, List.reverse_append, List.reverse_reverse, List.append_assoc]

theorem Leads.index_le (h : c.Leads d) : c.index ≤ d.index := by
  have hsum := h.index_add_left
  have hle := h.left_le
  omega

/-- The index of the first end-of-input token of the stream. -/
def firstEnd (c : Cursor) : Nat := c.stream.findIdx (·.kind == .endOfInput)

/-- Up to there no end-of-input token has been passed. -/
theorem index_le_firstEnd_iff : c.index ≤ c.firstEnd ↔ ∀ t ∈ c.passed, t.kind ≠ .endOfInput := by
  have hfind : c.passed.reverse.findIdx (·.kind == .endOfInput) < c.passed.length ↔
      ∃ t ∈ c.passed, t.kind = .endOfInput := by
    simpa using @List.findIdx_lt_length _ (fun t : Token => t.kind == .endOfInput) c.passed.reverse
  rw [firstEnd, stream, List.findIdx_append, List.length_reverse, index]
  split_ifs with h
  · obtain ⟨t, ht, hk⟩ := hfind.1 h
    exact ⟨fun hle => absurd h (Nat.not_lt_of_le hle), fun hall => absurd hk (hall t ht)⟩
  · exact ⟨fun _ t ht hk => h (hfind.2 ⟨t, ht, hk⟩), fun _ => Nat.le_add_left _ _⟩

/-- The first end-of-input token is never passed. -/
theorem Leads.index_le_firstEnd (h : c.Leads d) (hc : c.index ≤ c.firstEnd) :
    d.index ≤ d.firstEnd := by
  obtain ⟨taken, htaken, -, hp⟩ := h.exists_taken
  rw [index_le_firstEnd_iff] at hc ⊢
  rw [hp]
  refine List.forall_mem_append.2 ⟨fun t ht => htaken t (List.mem_reverse.1 ht), hc⟩

end Cursor

namespace Parse

variable {α β : Type}

/-! ### Runs over different streams -/

/-- What a step gives, or why it gives nothing. -/
def answer : EStateM.Result Exit State α → Except Exit α
  | .ok a _ => .ok a
  | .error e _ => .error e

/-- The hook interrupts the calls to come in the one state as in the other. -/
def HooksAlike (s t : State) : Prop :=
  ∀ n, s.hook.interrupts.contains (s.reports.length + (n + 1)) =
    t.hook.interrupts.contains (t.reports.length + (n + 1))

/-- Two states differ in their streams only, and in what has happened so far. -/
structure SamePlace (s t : State) : Prop where
  index : t.cursor.index = s.cursor.index
  depth : t.depth = s.depth
  hooks : HooksAlike s t

/-- The streams have the same tokens from one index to another. -/
def AgreeOn (c d : Cursor) (i j : Nat) : Prop := ∀ k, i ≤ k → k ≤ j → d.stream[k]? = c.stream[k]?

/-- Two runs give the same, and the same has happened in them; they end at the same place. -/
structure EndAlike (s t : State) (r r' : EStateM.Result Exit State α) : Prop where
  answer : answer r' = answer r
  events : ∃ l, (final r).events = s.events ++ l ∧ (final r').events = t.events ++ l
  errors : ∃ l, (final r).mismatches = s.mismatches ++ l ∧ (final r').mismatches = t.mismatches ++ l
  index : (final r').cursor.index = (final r).cursor.index
  depth : (final r').depth = (final r).depth

/-- A step does the same over any stream that agrees up to the token at which it ends. -/
def OneAhead (x : Action α) : Prop :=
  ∀ s t, SamePlace s t → AgreeOn s.cursor t.cursor s.cursor.index (final (x s)).cursor.index →
    EndAlike s t (x s) (x t)

/-- A step moves forward in the same stream, and not beyond the first end-of-input token. -/
def Forward (x : Action α) : Prop :=
  ∀ s, (final (x s)).cursor.stream = s.cursor.stream ∧
    s.cursor.index ≤ (final (x s)).cursor.index ∧
    (s.cursor.index ≤ s.cursor.firstEnd → (final (x s)).cursor.index ≤ s.cursor.firstEnd)

theorem Keeps.forward {x : Action α} (h : Keeps Follows Leaves x) : Forward x := by
  intro s
  have hleads := (h.final s).leads
  refine ⟨hleads.stream_eq, hleads.index_le, fun hs => ?_⟩
  have hend := hleads.index_le_firstEnd hs
  rwa [Cursor.firstEnd, hleads.stream_eq] at hend

/-- **Every operation moves forward.** -/
theorem Operation.step_forward (budget : Nat) (o : Operation) : Forward (o.step budget) := by
  cases o with
  | setDepth depth => exact fun s => ⟨rfl, Nat.le_refl _, id⟩
  | _ =>
    exact (step_keeps keptThroughout_follows .resumed budget _ fun _ h => by cases h).forward

/-! ### Up to a token -/

section Cursors

variable {x : Token} {us vs : List Token} {c d : Cursor}

theorem Beyond.left_lt (h : Beyond x us vs c d) : c.left < us.length := by
  have hlen := congrArg List.length h.2.1
  have hle := (List.dropWhile_sublist (l := us) (·.kind == .endOfLine)).length_le
  rw [Cursor.length_rest] at hlen
  omega

namespace Beside

/-- One token is passed by both, or the first cursor passes `x`. -/
theorem advance_or_lt (h : Beside x us vs c d) (hk : c.kind ≠ .endOfInput) :
    Beside x us vs c.advance d.advance ∨ c.advance.left < us.length := by
  refine (h.advance hk).imp_right fun ⟨_, hc, _⟩ => ?_
  rw [← hc, Cursor.length_rest]
  exact Nat.lt_succ_self _

theorem skipLines_or_lt (h : Beside x us vs c d) :
    Beside x us vs c.skipLines d.skipLines ∨ c.skipLines.left < us.length :=
  h.skipLines.imp_right Beyond.left_lt

theorem seek_or_lt (h : Beside x us vs c d) (depth : Int) :
    Beside x us vs (c.seek depth) (d.seek depth) ∨ (c.seek depth).left < us.length := by
  induction c using Cursor.advance_induction generalizing d with
  | h c ih =>
    rw [Cursor.seek_eq depth c, Cursor.seek_eq depth d, h.kind]
    split_ifs with hk
    · exact .inl h
    rcases h.passTerminator depth with ⟨hc, hd⟩ | ⟨c', d', hc, hd, hcd⟩
    · rw [hc, hd]
      have hend : c.kind ≠ .endOfInput := fun h => hk (.inl h)
      rcases h.advance_or_lt hend with h | hlt
      · exact ih hend h
      · exact .inr (Nat.lt_of_le_of_lt (Cursor.Leads.seek depth _).left_le hlt)
    · rw [hc, hd]
      exact hcd.imp_right Beyond.left_lt

/-- After an error both go on at the same place, or the first one passes `x`. -/
theorem resume_or_lt (h : Beside x us vs c d) (depth : Int) :
    Beside x us vs (c.resume depth) (d.resume depth) ∨ (c.resume depth).left < us.length := by
  rw [Cursor.resume, Cursor.resume]
  rcases h.passTerminator depth with ⟨hc, hd⟩ | ⟨c', d', hc, hd, hcd⟩
  · rw [hc, hd]
    rcases h.advance_or_lt (Cursor.passTerminator?_eq_none.1 hc).1 with h | hlt
    · exact h.seek_or_lt depth
    · exact .inr (Nat.lt_of_le_of_lt (Cursor.Leads.seek depth _).left_le hlt)
  · rw [hc, hd]
    exact hcd.imp_right Beyond.left_lt

/-- An end-of-input token is not passed. -/
theorem length_le_of_leads (h : Beside x us vs c d) (hx : x.kind = .endOfInput) {c' : Cursor}
    (hc : c.Leads c') : us.length ≤ c'.left := by
  obtain ⟨ts, -, hrest, -⟩ := h
  obtain ⟨taken, htaken, hrest', -⟩ := hc.exists_taken
  have hlen := congrArg List.length (hrest.symm.trans hrest')
  simp only [List.length_append, List.length_cons, Cursor.length_rest] at hlen
  -- otherwise `x` is one of the tokens that are taken
  by_contra hlt
  have hx' : x ∈ taken := by
    have hget : taken[ts.length]? = (taken ++ c'.rest)[ts.length]? :=
      (List.getElem?_append_left (by omega)).symm
    rw [← hrest', hrest, List.getElem?_append_right (Nat.le_refl _), Nat.sub_self] at hget
    exact List.mem_of_getElem? hget
  exact htaken x hx' hx

end Beside

end Cursors

/-! ### Side by side -/

/-- Two states over streams that agree up to `x`, with the same events behind those of the past, `es`
and `fs`. -/
structure Abreast (x : Token) (us vs : List Token) (es fs : List Event) (s t : State) : Prop where
  cursors : Beside x us vs s.cursor t.cursor
  depth : t.depth = s.depth
  events : ∃ l, s.events = es ++ l ∧ t.events = fs ++ l
  hooks : HooksAlike s t

theorem HooksAlike.reported {s t : State} (h : HooksAlike s t) (m : Mismatch) :
    HooksAlike (s.reported m) (t.reported m) := by
  intro n
  have hs : (s.reported m).reports.length = s.reports.length + 1 := List.length_append
  have ht : (t.reported m).reports.length = t.reports.length + 1 := List.length_append
  rw [hs, ht, Nat.add_assoc, Nat.add_assoc, Nat.add_comm 1 (n + 1)]
  exact h (n + 1)

namespace Abreast

variable {x : Token} {us vs : List Token} {es fs : List Event} {s t : State}

theorem moveTo {c d : Cursor} (h : Abreast x us vs es fs s t) (hcd : Beside x us vs c d) :
    Abreast x us vs es fs (s.moveTo c) (t.moveTo d) := ⟨hcd, h.depth, h.events, h.hooks⟩

theorem note (e : Event) (h : Abreast x us vs es fs s t) :
    Abreast x us vs es fs (s.note e) (t.note e) := by
  obtain ⟨l, hs, ht⟩ := h.events
  refine ⟨h.cursors, h.depth, ⟨l ++ [e], ?_, ?_⟩, h.hooks⟩
  · rw [State.note, hs, List.append_assoc]
  · rw [State.note, ht, List.append_assoc]

theorem reported (m : Mismatch) (h : Abreast x us vs es fs s t) :
    Abreast x us vs es fs (s.reported m) (t.reported m) :=
  ⟨h.cursors, h.depth, (h.note (.reported m)).events, h.hooks.reported m⟩

theorem resumed (h : Abreast x us vs es fs s t) :
    Abreast x us vs es fs s.resumed t.resumed ∨ s.resumed.cursor.left < us.length := by
  refine (h.cursors.resume_or_lt s.depth).imp_left fun hcd => ?_
  rw [State.resumed, State.resumed, h.depth, hcd.current]
  exact (h.moveTo hcd).note _

theorem next (h : Abreast x us vs es fs s t) (hk : s.cursor.kind ≠ .endOfInput) :
    Abreast x us vs es fs s.next t.next ∨ s.next.cursor.left < us.length :=
  (h.cursors.advance_or_lt hk).imp_left h.moveTo

theorem opened (h : Abreast x us vs es fs s t) : Abreast x us vs es fs s.opened t.opened :=
  ⟨h.cursors, congrArg (· + 1) h.depth, h.events, h.hooks⟩

theorem closed (h : Abreast x us vs es fs s t) : Abreast x us vs es fs s.closed t.closed :=
  ⟨h.cursors, congrArg (· - 1) h.depth, h.events, h.hooks⟩

theorem begun (h : Abreast x us vs es fs s t) :
    Abreast x us vs es fs s.begun t.begun ∨ s.begun.cursor.left < us.length :=
  h.cursors.skipLines_or_lt.imp_left h.moveTo

end Abreast

/-- Two runs over streams that agree up to `x`.  The first one is lost when it passes that token. -/
def lookahead (x : Token) (us vs : List Token) (es fs : List Event) : StatementSimulation where
  relabel := id
  Near := Abreast x us vs es fs
  Apart _ _ := False
  Lost s := s.cursor.left < us.length
  kind_relabel := kind_id
  literal_relabel := literal_id
  hooks h := (h.hooks 0).symm
  same h _ := h.cursors.current
  next h hk := h.next hk.2.2.2
  failed rule message h := by
    rw [h.cursors.current]
    exact h.reported _
  rejected h _ := h.reported _
  lost h hl := Nat.lt_of_le_of_lt h.leads.left_le hl
  brace h := by rw [h.cursors.kind]
  stop h := by rw [h.cursors.kind]
  passed h hk := h.next (by rw [hk]; decide)
  entered {s _} h hk := by
    rcases h.next (by rw [hk]; decide) with h | hlt
    · exact h.opened.begun.imp_right .inr
    · exact .inr (.inr (Nat.lt_of_le_of_lt (Cursor.Leads.skipLines s.next.cursor).left_le hlt))
  ended h := by
    rw [h.depth]
    refine (h.cursors.passTerminator _).imp_right ?_
    rintro ⟨c, d, hc, hd, hcd⟩
    exact ⟨c, d, hc, hd, hcd.imp h.moveTo fun h' => .inr h'.left_lt⟩
  resumed h := h.resumed.imp_right .inr
  closed h := h.closed
  closed_apart h := h
  closed_lost h := h
  atEnd h := h.elim
  unclosed h := h.elim

/-- Where both runs leave for an error, it is the last one of those that both have recorded. -/
theorem Abreast.mismatch_eq {x : Token} {us vs : List Token} {es fs : List Event}
    {s t u v : State} {m n : Mismatch} (h : Abreast x us vs es fs s t)
    (h' : Abreast x us vs es fs u v) (hm : Leaves s (.mismatch m) u)
    (hn : Leaves t (.mismatch n) v) : m = n := by
  obtain ⟨k, hs, ht⟩ := h.events
  obtain ⟨k', hu, hv⟩ := h'.events
  obtain ⟨l, hl⟩ := hm.recorded m rfl
  obtain ⟨l', hl'⟩ := hn.recorded n rfl
  rw [hs, hu, List.append_assoc, List.append_assoc, List.append_cancel_left_eq] at hl
  rw [ht, hv, List.append_assoc, List.append_assoc, List.append_cancel_left_eq] at hl'
  have hlast := congrArg List.getLast? (hl.symm.trans hl')
  simpa using hlast

/-- Where the first run is not lost, the second one does the same. -/
theorem Abreast.of_tracked {x : Token} {us vs : List Token} {es fs : List Event} {s t : State}
    {g : α → α} {A : State → State → Prop} {y : Action α} (hg : g = id) (hA : ∀ u v, ¬ A u v)
    (hk : Keeps Follows Leaves y) (h : Abreast x us vs es fs s t)
    (hst : (lookahead x us vs es fs).Tracked g A (y s) (y t))
    (hlost : ¬ (final (y s)).cursor.left < us.length) (hend : ∀ u, y s ≠ .error .endless u) :
    answer (y t) = answer (y s) ∧ Abreast x us vs es fs (final (y s)) (final (y t)) := by
  have hs : ∀ e u, y s = .error e u → Leaves s e u := fun _ _ => hk.error
  have ht : ∀ e u, y t = .error e u → Leaves t e u := fun _ _ => hk.error
  generalize y s = r at hst hlost hend hs
  generalize y t = r' at hst ht
  cases hst with
  | @ok a _ _ hn => exact ⟨by rw [hg]; rfl, hn⟩
  | @error e f u v hef hn =>
    refine ⟨congrArg Except.error ?_, hn⟩
    cases hef with
    | interrupted => rfl
    | endless => rfl
    | mismatch m n => rw [h.mismatch_eq hn (hs _ u rfl) (ht _ v rfl)]
  | apart ha => exact absurd ha (hA _ _)
  | vain hv =>
    rcases hv with ⟨u, rfl⟩ | hl
    · exact absurd rfl (hend u)
    · exact absurd hl hlost

/-- The indices of both runs have grown by the same number. -/
theorem Abreast.index_eq {x : Token} {us vs : List Token} {es fs : List Event} {s t u v : State}
    (h : Abreast x us vs es fs s t) (h' : Abreast x us vs es fs u v) (hu : s.cursor.Leads u.cursor)
    (hv : t.cursor.Leads v.cursor) (hi : t.cursor.index = s.cursor.index) :
    v.cursor.index = u.cursor.index := by
  have hleft : ∀ {c d : Cursor}, Beside x us vs c d → d.left + us.length = c.left + vs.length := by
    rintro c d ⟨ts, -, hc, hd⟩
    have hc' := congrArg List.length hc
    have hd' := congrArg List.length hd
    simp only [Cursor.length_rest, List.length_append, List.length_cons] at hc' hd'
    omega
  have hst := hleft h.cursors
  have huv := hleft h'.cursors
  have hsu := hu.index_add_left
  have htv := hv.index_add_left
  omega

/-- Two runs that stay side by side end alike. -/
theorem Abreast.endAlike {x : Token} {us vs : List Token} {s t : State} {es fs : List Event}
    {y : Action α} (hk : Keeps Follows Leaves y) (hi : t.cursor.index = s.cursor.index)
    (hes : s.events = es) (hfs : t.events = fs) (h : Abreast x us vs es fs s t)
    (hanswer : answer (y t) = answer (y s))
    (h' : Abreast x us vs es fs (final (y s)) (final (y t))) : EndAlike s t (y s) (y t) := by
  obtain ⟨l, hl, hl'⟩ := h'.events
  rw [← hes] at hl
  rw [← hfs] at hl'
  have hevents : ∀ {u v : State}, v.events = u.events ++ l →
      v.mismatches = u.mismatches ++ l.filterMap Event.mismatch? := by
    intro u v huv
    rw [State.mismatches, huv, List.filterMap_append]
    rfl
  exact ⟨hanswer, ⟨l, hl, hl'⟩, ⟨_, hevents hl, hevents hl'⟩,
    h.index_eq h' (hk.final s).leads (hk.final t).leads hi, h'.depth⟩

/-! ### Single steps -/

/-- Two cursors at the same index whose streams agree up to where the first one is led. -/
theorem exists_beside {c c' d : Cursor} (hc : c.Leads c') (hi : d.index = c.index)
    (ha : AgreeOn c d c.index c'.index) :
    ∃ vs, Beside c'.current c'.ahead vs c d := by
  obtain ⟨taken, htaken, hr, hp⟩ := hc.exists_taken
  have hlen : c'.index = c.index + taken.length := by
    rw [Cursor.index, hp, List.length_append, List.length_reverse, Nat.add_comm]
    rfl
  refine ⟨d.rest.drop (taken.length + 1), taken, htaken, hr, ?_⟩
  have hrest : ∀ k ≤ taken.length, d.rest[k]? = c.rest[k]? := by
    intro k hk
    rw [← Cursor.getElem?_stream, ← Cursor.getElem?_stream, hi]
    exact ha _ (Nat.le_add_right _ _) (by omega)
  have htake : d.rest.take (taken.length + 1) = c.rest.take (taken.length + 1) := by
    apply List.ext_getElem?
    intro k
    rw [List.getElem?_take, List.getElem?_take]
    split_ifs with hk
    · exact hrest k (Nat.le_of_lt_succ hk)
    · rfl
  rw [← List.take_append_drop (taken.length + 1) d.rest, htake, hr, Cursor.rest,
    List.take_length_add_append]
  simp

/-- **A step that goes side by side over all streams that agree up to a token looks at no token behind
the one at which it ends.** -/
theorem oneAhead_of_tracks {y : Action α} {g : α → α} {A : State → State → Prop} (hg : g = id)
    (hA : ∀ u v, ¬ A u v) (hk : Keeps Follows Leaves y) (hend : ∀ s u, y s ≠ .error .endless u)
    (hy : ∀ x us vs es fs, (lookahead x us vs es fs).Tracks g A y y) : OneAhead y := by
  intro s t hp ha
  obtain ⟨vs, hvs⟩ := exists_beside (hk.final s).leads hp.index ha
  have h : Abreast _ _ vs s.events t.events s t :=
    ⟨hvs, hp.depth, ⟨[], (List.append_nil _).symm, (List.append_nil _).symm⟩, hp.hooks⟩
  obtain ⟨hanswer, h'⟩ := h.of_tracked hg hA hk (hy _ _ _ _ _ s t h) (Nat.lt_irrefl _) (hend s)
  exact h.endAlike hk hp.index rfl rfl hanswer h'

theorem optionMap_stmtMap_id : Option.map (Stmt.map id) = id := by
  rw [show Stmt.map id = id from funext Stmt.map_id, Option.map_id]

theorem statement_oneAhead : OneAhead statement :=
  oneAhead_of_tracks optionMap_stmtMap_id (fun _ _ => id) kept_follows.statement
    statement_ne_endless fun x us vs es fs => (lookahead x us vs es fs).statement

theorem expression_oneAhead : OneAhead expression :=
  oneAhead_of_tracks (funext Expr.map_id) (fun _ _ => id)
    (fun s => kept_follows.expressionWithin _ s) expression_ne_endless
    fun x us vs es fs => (lookahead x us vs es fs).expression

theorem requireTerminator_oneAhead (message : String) : OneAhead (requireTerminator message) :=
  oneAhead_of_tracks rfl (fun _ _ => id) (kept_follows.requireTerminator message)
    (fun s u => (requireTerminator_settled message s (Nat.lt_succ_self _)).2 u)
    fun x us vs es fs => (lookahead x us vs es fs).requireTerminator message

theorem passTerminator_oneAhead : OneAhead passTerminator := by
  refine oneAhead_of_tracks rfl (fun _ _ => id) passTerminator_follows (fun s u h => ?_)
    fun x us vs es fs => (lookahead x us vs es fs).passTerminator
  rw [passTerminator_run] at h
  split at h <;> cases h

theorem resume_oneAhead : OneAhead resume :=
  oneAhead_of_tracks rfl (fun _ _ => id) resume_follows (fun _ _ h => by cases h)
    fun x us vs es fs => (lookahead x us vs es fs).resume

/-! ### Whole programs -/

theorem answer_map (x : Action α) (f : α → β) (s : State) :
    answer ((x >>= fun a => pure (f a)) s) = (answer (x s)).map f ∧
      final ((x >>= fun a => pure (f a)) s) = final (x s) := by
  rw [bind_run]
  cases x s <;> exact ⟨rfl, rfl⟩

namespace Abreast

variable {e : Token} {us vs : List Token} {s t : State}

/-- With no events in the past both runs have the same errors. -/
theorem mismatches_eq (h : Abreast e us vs [] [] s t) : t.mismatches = s.mismatches := by
  obtain ⟨l, hs, ht⟩ := h.events
  rw [State.mismatches, State.mismatches, hs, ht]

/-- **Tokens behind an end-of-input token do not matter** to the entries of a program. -/
theorem entries (he : e.kind = .endOfInput) (budget : Nat) (h : Abreast e us vs [] [] s t)
    (hd : s.depth ≤ 0) {n m : Nat} (hn : s.cursor.left < n) (hm : t.cursor.left < m) :
    answer (entries budget m t) = answer (entries budget n s) ∧
      Abreast e us vs [] [] (final (Parse.entries budget n s)) (final (Parse.entries budget m t)) := by
  induction n generalizing s t m with
  | zero => omega
  | succ n ih =>
    obtain ⟨m, rfl⟩ : ∃ i, m = i + 1 := ⟨m - 1, by omega⟩
    rw [entries_run, entries_run, h.cursors.kind]
    split_ifs with hk
    · exact ⟨rfl, h⟩
    have hkt : t.cursor.kind ≠ .endOfInput := h.cursors.kind ▸ hk
    have hnot := h.cursors.length_le_of_leads he (kept_follows.statement.final s).leads
    obtain ⟨hanswer, h'⟩ := h.of_tracked optionMap_stmtMap_id (fun _ _ => id) kept_follows.statement
      ((lookahead e us vs [] []).statement s t h) (Nat.not_lt.2 hnot) (statement_ne_endless s)
    cases ho : statement s with
    | error x u =>
      rw [ho] at hanswer h'
      cases ho' : statement t with
      | ok o v => rw [ho'] at hanswer; cases hanswer
      | error x' v =>
        rw [ho'] at hanswer h'
        cases hanswer
        exact ⟨rfl, h'⟩
    | ok o u =>
      rw [ho] at hanswer h'
      cases ho' : statement t with
      | error x v => rw [ho'] at hanswer; cases hanswer
      | ok o' v =>
        rw [ho'] at hanswer h'
        cases hanswer
        have huv : Abreast e us vs [] [] u v := h'
        have hlt := statementWithin_left_lt ho (not_stuck hd hk)
        have hdu := (kept_follows.statement.ok ho).depth
        have hlt' := statementWithin_left_lt ho' (not_stuck (h.depth ▸ hd) hkt)
        dsimp only
        rw [huv.mismatches_eq]
        split_ifs with hb
        · refine ⟨rfl, ?_⟩
          show Abreast e us vs [] [] u.stopped v.stopped
          rw [State.stopped, State.stopped, huv.mismatches_eq, huv.cursors.current]
          exact huv.note _
        · obtain ⟨hrest, hend⟩ := ih huv (by omega) (show u.cursor.left < n by omega)
            (show v.cursor.left < m by omega)
          obtain ⟨hau, hfu⟩ := answer_map (Parse.entries budget n) (o :: ·) u
          obtain ⟨hav, hfv⟩ := answer_map (Parse.entries budget m) (o :: ·) v
          rw [hau, hav, hfu, hfv, hrest]
          exact ⟨rfl, hend⟩

/-- **Tokens behind an end-of-input token do not matter** to a program. -/
theorem program (he : e.kind = .endOfInput) (budget : Nat) (h : Abreast e us vs [] [] s t)
    (hd : s.depth ≤ 0) :
    answer (program budget t) = answer (program budget s) ∧
      Abreast e us vs [] [] (final (Parse.program budget s)) (final (Parse.program budget t)) := by
  have hskip := h.cursors.length_le_of_leads he (.skipLines s.cursor)
  have hbegun := h.begun.resolve_right (Nat.not_lt.2 hskip)
  obtain ⟨hanswer, hend⟩ := hbegun.entries he budget hd (lt_rounds budget s.begun)
    (lt_rounds budget t.begun)
  rw [program_run, program_run]
  generalize Parse.entries budget (s.begun.rounds budget) s.begun = r at hanswer hend
  generalize Parse.entries budget (t.begun.rounds budget) t.begun = r' at hanswer hend
  cases r with
  | error x u =>
    cases r' with
    | ok p v => cases hanswer
    | error x' v =>
      cases hanswer
      exact ⟨rfl, hend⟩
  | ok p u =>
    cases r' with
    | error x v => cases hanswer
    | ok p' v =>
      cases hanswer
      have huv : Abreast e us vs [] [] u v := hend
      refine ⟨rfl, ?_⟩
      show Abreast e us vs [] [] (u.note (.finished p.length u.mismatches.length))
        (v.note (.finished p.length v.mismatches.length))
      rw [huv.mismatches_eq]
      exact huv.note _

end Abreast

/-- The first end-of-input token of a stream. -/
theorem exists_firstEnd (front : List Token) {e : Token} (he : e.kind = .endOfInput) :
    ∃ ts e' tail, (∀ t ∈ ts, t.kind ≠ .endOfInput) ∧ e'.kind = .endOfInput ∧
      front ++ [e] = ts ++ e' :: tail := by
  cases hfind : (front ++ [e]).find? (·.kind == .endOfInput) with
  | none =>
    have hnone := List.find?_eq_none.1 hfind e (List.mem_append_right _ List.mem_cons_self)
    exact absurd (beq_iff_eq.2 he) hnone
  | some e' =>
    obtain ⟨he', ts, tail, heq, hts⟩ := List.find?_eq_some_iff_append.1 hfind
    exact ⟨ts, e', tail, fun t ht => by simpa using hts t ht, beq_iff_eq.1 he', heq⟩

/-- **Two streams with the same tokens up to an end-of-input token** are parsed alike. -/
theorem program_endAlike (budget : Nat) {front back back' : List Token} {e : Token} {hook : Hook}
    {s t : State} (he : e.kind = .endOfInput) (hs : start? (front ++ e :: back) hook = some s)
    (ht : start? (front ++ e :: back') hook = some t) :
    EndAlike s t (program budget s) (program budget t) := by
  obtain ⟨ts, e', tail, hts, he', heq⟩ := exists_firstEnd front he
  have hsplit : ∀ us, front ++ e :: us = ts ++ e' :: (tail ++ us) := fun us => by
    rw [← List.cons_append, ← List.append_assoc, ← heq, List.append_assoc, List.singleton_append]
  rw [hsplit] at hs ht
  obtain ⟨hrs, hps, hds, hes, hcs, hhs⟩ := start?_eq_some.1 hs
  obtain ⟨hrt, hpt, hdt, het, hct, hht⟩ := start?_eq_some.1 ht
  have h : Abreast e' (tail ++ back) (tail ++ back') [] [] s t :=
    ⟨⟨ts, hts, hrs, hrt⟩, hdt.trans hds.symm, ⟨[], hes, het⟩, fun n => by rw [hcs, hct, hhs, hht]⟩
  obtain ⟨hanswer, h'⟩ := h.program he' budget (Int.le_of_eq hds)
  refine h.endAlike (keptThroughout_follows.program budget) ?_ hes het hanswer h'
  rw [Cursor.index, Cursor.index, hps, hpt]

/-- **One token of lookahead.**  Statements, expressions, terminators and recovery end in the same way
over any stream that has the same tokens up to the one at which they end.  They and whole programs
move forward only and never pass the first end-of-input token, and no token behind that one matters
to a program. -/
theorem one_token_of_lookahead :
    OneAhead statement ∧ OneAhead expression ∧ (∀ message, OneAhead (requireTerminator message)) ∧
      OneAhead passTerminator ∧ OneAhead resume ∧
      (∀ (budget : Nat) (o : Operation), Forward (o.step budget)) ∧
      ∀ (budget : Nat) (front back back' : List Token) (e : Token) (hook : Hook) (s t : State),
        e.kind = .endOfInput → start? (front ++ e :: back) hook = some s →
          start? (front ++ e :: back') hook = some t →
            EndAlike s t (program budget s) (program budget t) := by
  refine ⟨statement_oneAhead, expression_oneAhead, requireTerminator_oneAhead,
    passTerminator_oneAhead, resume_oneAhead, fun budget o => o.step_forward budget, ?_⟩
  exact fun budget front back back' e hook s t he hs ht => program_endAlike budget he hs ht

/-- A stray parenthesis in front of a semicolon is dropped in the same way whatever comes behind the
variable on which recovery ends, and what is behind the end of the input is not parsed. -/
theorem ahead_of_a_dropped_statement :
    let paren : Token := ⟨.rightParen, ")", .nil, 1, 1⟩
    let semicolon : Token := ⟨.semicolon, ";", .nil, 1, 2⟩
    let x : Token := ⟨.identifier, "x", .nil, 1, 3⟩
    let equals : Token := ⟨.equal, "=", .nil, 1, 4⟩
    let stop : Token := ⟨.endOfInput, "", .nil, 1, 5⟩
    ∃ s t, start? [paren, semicolon, x, stop] {} = some s ∧
      start? [paren, semicolon, x, equals, stop] {} = some t ∧
      EndAlike s t (statement s) (statement t) ∧ (final (statement s)).cursor.index = 2 ∧
      ∃ u, start? [paren, semicolon, x, stop, equals, stop] {} = some u ∧
        EndAlike s u (program 0 s) (program 0 u) ∧
        (final (Operation.program.step 0 u)).cursor.index ≤ u.cursor.firstEnd := by
  intro paren semicolon x equals stop
  let s : State := { cursor := ⟨[], paren, [semicolon, x, stop], rfl⟩ }
  let t : State := { cursor := ⟨[], paren, [semicolon, x, equals, stop], rfl⟩ }
  let u : State := { cursor := ⟨[], paren, [semicolon, x, stop, equals, stop], rfl⟩ }
  have hs : start? [paren, semicolon, x, stop] {} = some s := rfl
  have hu : start? [paren, semicolon, x, stop, equals, stop] {} = some u := rfl
  obtain ⟨hstatement, -, -, -, -, hforward, hprogram⟩ := one_token_of_lookahead
  have hindex : (final (statement s)).cursor.index = 2 := by decide +kernel
  have hplace : SamePlace s t := ⟨rfl, rfl, fun _ => rfl⟩
  have hagree : AgreeOn s.cursor t.cursor s.cursor.index (final (statement s)).cursor.index := by
    intro k _ hk
    rw [hindex] at hk
    match k, hk with
    | 0, _ | 1, _ | 2, _ => rfl
  refine ⟨s, t, hs, rfl, hstatement s t hplace hagree, hindex, u, hu, ?_, ?_⟩
  · exact hprogram 0 [paren, semicolon, x] [] [equals, stop] stop {} s u rfl hs hu
  · exact (hforward 0 .program u).2.2 (Nat.zero_le _)

end Parse

end LoxFront
