import LoxFront.Proofs.Parse.Budget
import LoxFront.Proofs.Parse.Reports

/-!
# Every error is accounted for

An error is recorded deep inside of a statement, and recovery begins only where a statement is
dropped.  Still the two belong together: with a hook that never interrupts, each error is followed
at once by one recovery, unless it is a rejected assignment, and there is no other recovery
(`Accounted`).

A block reads statements, which may be blocks again.  `calls s` lists the states in which statements
begin that are read in the course of one, this one last of all, and `own s` is what happens in the
course of one but not of those inside of it.  A statement is dropped exactly if there is a recovery of
its own (`statement_own`), and what happens in a program happens in its statements
(`Steps.events_eq`).  So as many statements are dropped, in whatever block, as there are errors that
are not rejected assignments (`errors_are_accounted_for`).
-/

namespace LoxFront.Parse

/-! ### Errors and recovery -/

namespace Event

/-- Whether reading goes on after an error. -/
def isResumed : Event → Bool
  | resumed _ => true
  | _ => false

/-- Whether an event is an error, or that reading goes on after one. -/
def isOfError : Event → Bool
  | reported _ | resumed _ => true
  | _ => false

/-- An assignment was rejected. -/
def Rejected (e : Event) : Prop := ∃ m : Mismatch, e = reported m ∧ m.rule = .assignment

end Event

/-- Reading goes on just behind each error that is no rejected assignment. -/
inductive Accounted : List Event → Prop
  | nil : Accounted []
  | rejected {e : Event} {w : List Event} : e.Rejected → Accounted w → Accounted (e :: w)
  | recovered {m : Mismatch} {w : List Event} (t : Token) : m.rule ≠ .assignment → Accounted w →
      Accounted (.reported m :: .resumed t :: w)

namespace Accounted

variable {w w' : List Event}

theorem append (h : Accounted w) (h' : Accounted w') : Accounted (w ++ w') := by
  induction h with
  | nil => exact h'
  | rejected he _ ih => exact .rejected he ih
  | recovered t hm _ ih => exact .recovered t hm ih

theorem of_rejected (h : ∀ e ∈ w, e.Rejected) : Accounted w := by
  induction w with
  | nil => exact .nil
  | cons e w ih =>
    obtain ⟨he, hw⟩ := List.forall_mem_cons.1 h
    exact .rejected he (ih hw)

theorem isOfError (h : Accounted w) : ∀ e ∈ w, e.isOfError = true := by
  induction h with
  | nil => exact List.forall_mem_nil _
  | rejected he _ ih =>
    obtain ⟨m, rfl, -⟩ := he
    exact List.forall_mem_cons.2 ⟨rfl, ih⟩
  | recovered t _ _ ih => exact List.forall_mem_cons.2 ⟨rfl, List.forall_mem_cons.2 ⟨rfl, ih⟩⟩

/-- Nothing goes on before there is an error. -/
theorem head_ne_resumed (h : Accounted w) (t : Token) : w[0]? ≠ some (.resumed t) := by
  cases h with
  | nil => simp
  | rejected he _ =>
    obtain ⟨m, rfl, -⟩ := he
    simp
  | recovered => simp

/-- Reading goes on behind those errors that are no rejected assignments, and only there. -/
theorem resumed_iff (h : Accounted w) (i : Nat) :
    (∃ t, w[i + 1]? = some (.resumed t)) ↔
      ∃ m, w[i]? = some (.reported m) ∧ m.rule ≠ .assignment := by
  induction h generalizing i with
  | nil => simp
  | @rejected e w he hw ih =>
    cases i with
    | succ i => exact ih i
    | zero =>
      obtain ⟨m, rfl, hm⟩ := he
      have hne := hw.head_ne_resumed
      simp [hm] at hne ⊢
      exact hne
  | @recovered m w t hm hw ih =>
    match i with
    | 0 => simpa using hm
    | 1 =>
      have hne := hw.head_ne_resumed
      simp at hne ⊢
      exact hne
    | i + 2 => exact ih i

/-- There are as many recoveries as errors that are no rejected assignments. -/
theorem countP_isResumed (h : Accounted w) :
    w.countP Event.isResumed =
      ((w.filterMap Event.mismatch?).filter (·.rule ≠ .assignment)).length := by
  induction h with
  | nil => rfl
  | rejected he _ ih =>
    obtain ⟨m, rfl, hm⟩ := he
    simpa [Event.isResumed, Event.mismatch?, hm] using ih
  | recovered t hm _ ih =>
    simpa [List.countP_cons, List.filterMap_cons, Event.isResumed, Event.mismatch?, hm] using ih

end Accounted

/-! ### Inside of a statement -/

/-- Nothing happens from one state to the other but that assignments are rejected. -/
def Rejects (s t : State) : Prop :=
  ∃ l, t.events = s.events ++ l ∧ ∀ e ∈ l, e.Rejected

/-- Assignments are rejected, and then there is another error. -/
def FailsAtLast (s t : State) : Prop :=
  ∃ l m, t.events = s.events ++ (l ++ [.reported m]) ∧ (∀ e ∈ l, e.Rejected) ∧ m.rule ≠ .assignment

namespace Rejects

variable {s t u : State}

theorem refl (s : State) : Rejects s s := ⟨[], (List.append_nil _).symm, List.forall_mem_nil _⟩

theorem trans (h : Rejects s t) (h' : Rejects t u) : Rejects s u := by
  obtain ⟨l, hl, hs⟩ := h
  obtain ⟨l', hl', ht⟩ := h'
  exact ⟨l ++ l', by rw [hl', hl, List.append_assoc], List.forall_mem_append.2 ⟨hs, ht⟩⟩

theorem reported (equals : Token) (s : State) :
    Rejects s (s.reported (.invalidAssignment equals)) :=
  ⟨[_], rfl, fun _ he => ⟨_, List.mem_singleton.1 he, rfl⟩⟩

theorem failsAtLast (h : Rejects s t) (h' : FailsAtLast t u) : FailsAtLast s u := by
  obtain ⟨l, hl, hs⟩ := h
  obtain ⟨l', m, hl', ht, hm⟩ := h'
  refine ⟨l ++ l', m, ?_, List.forall_mem_append.2 ⟨hs, ht⟩, hm⟩
  rw [hl', hl]
  simp only [List.append_assoc]

end Rejects

/-- **Inside of a statement** assignments are rejected, and another error ends it. -/
theorem keptInside_rejects :
    KeptInside Rejects (fun s e t => ∀ m, e = .mismatch m → FailsAtLast s t) where
  refl := .refl
  trans := .trans
  next s _ := .refl s
  rejected _ h _ := h.trans (.reported _ _)
  after h h' m he := h.failsAtLast (h' m he)
  failed _ _ _ hr _ _ := ⟨[], _, rfl, List.forall_mem_nil _, hr⟩
  stopped _ _ _ _ he := by cases he
  endless _ _ he := by cases he

/-! ### Statements inside of statements -/

/-- What a statement gives. -/
def result (s : State) : Option Stmt :=
  match statement s with
  | .ok o _ => o
  | .error _ _ => none

/-- The states in which the statements of a block begin.  The fuel need not exceed the tokens
left. -/
def itemsWithin : Nat → State → List State
  | 0, _ => []
  | fuel + 1, s =>
    if s.cursor.kind = .rightBrace ∨ s.cursor.kind = .endOfInput then []
    else s :: itemsWithin fuel (final (statement s))

/-- The statements of a block, with the fuel that they need. -/
def blockStatements : Action (List Stmt) := fun s => blockItems statement (s.cursor.left + 1) s

/-- The states in which statements begin that are read in the course of one.  This one ends last, and
those inside of it in the order of the list.  The fuel need not exceed the tokens left. -/
def callsWithin : Nat → State → List State
  | 0, _ => []
  | fuel + 1, s =>
    if s.cursor.kind = .leftBrace then
      let block := s.next.opened.begun
      (itemsWithin (block.cursor.left + 1) block).flatMap (callsWithin fuel) ++ [s]
    else [s]

@[inherit_doc callsWithin]
def calls (s : State) : List State := callsWithin (s.cursor.left + 1) s

/-- The state behind the statements inside of a statement. -/
def inside (s : State) : State :=
  if s.cursor.kind = .leftBrace then final (blockStatements s.next.opened.begun) else s

/-- What happens in the course of a statement, but not of one inside of it. -/
def own (s : State) : List Event := (final (statement s)).events.drop (inside s).events.length

section Silent

variable {s : State}

theorem statement_eq_ok (hh : s.hook.interrupts = []) :
    statement s = .ok (result s) (final (statement s)) := by
  obtain ⟨o, t, ho⟩ := statement_ok hh
  rw [result, ho]
  rfl

theorem hook_final (s : State) : (final (statement s)).hook = s.hook :=
  (kept_follows.statement.final s).hook

/-- A block has the statements that are read in it and not dropped. -/
theorem blockItems_eq_ok {fuel : Nat} (hh : s.hook.interrupts = []) (hf : s.cursor.left < fuel) :
    ∃ t, blockItems statement fuel s = .ok ((itemsWithin fuel s).filterMap result) t := by
  induction fuel generalizing s with
  | zero => omega
  | succ fuel ih =>
    rw [blockItems_run, itemsWithin]
    split_ifs with hend
    · exact ⟨s, rfl⟩
    have ho := statement_eq_ok hh
    have hlt := statementWithin_left_lt ho fun h => hend (h.symm.imp_left And.left)
    obtain ⟨t, ht⟩ := ih (s := final (statement s)) (by rw [hook_final, hh]) (by omega)
    refine ⟨t, ?_⟩
    rw [bind_of_ok ho, bind_of_ok ht, List.filterMap_cons]
    cases result s <;> rfl

/-- A statement that begins with a brace is a block: behind its statements comes its end. -/
theorem statementOver_of_brace (hb : s.cursor.kind = .leftBrace) {items : List Stmt} {t : State}
    (ht : blockStatements s.next.opened.begun = .ok items t) :
    statementOver (s.cursor.left + 1) (statementWithin s.cursor.left) s =
      match blockEnd items t with
      | .ok a u => .ok a u.closed
      | .error e u => .error e u.closed := by
  have hleft := left_block_lt hb
  -- the fuel of the block lasts, and how much there is makes no difference
  have hitem : Settled s.cursor.left (statementWithin s.cursor.left) statement := fun u hu =>
    ⟨statementWithin_eq hu, fun t => by rw [statementWithin_eq hu]; exact statement_ne_endless u t⟩
  have hitems : blockItems (statementWithin s.cursor.left) (s.cursor.left + 1) s.next.opened.begun =
      .ok items t :=
    ((blockItems_settled (kept_follows.statementWithin _) (statementWithin_progresses _)
      (hitem.mono hleft) (by omega) (Nat.le_refl _) _ (Nat.lt_succ_self _)).1).trans ht
  rw [statementOver_run, hb, if_neg (by decide), if_neg (by decide), if_pos rfl, blockRest,
    insideBlock_run, blockBody_run, bind_of_ok hitems]
  cases blockEnd items t <;> rfl

/-- What happens in the course of a statement itself, given whether it is dropped: assignments are
rejected, and if there is another error, one recovery follows it. -/
inductive Own : Option Stmt → List Event → Prop
  | kept {a : Stmt} {l : List Event} : (∀ e ∈ l, e.Rejected) → Own (some a) l
  | dropped {l : List Event} {m : Mismatch} (t : Token) : (∀ e ∈ l, e.Rejected) →
      m.rule ≠ .assignment → Own none (l ++ [.reported m, .resumed t])

theorem Own.accounted {o : Option Stmt} {l : List Event} (h : Own o l) : Accounted l := by
  cases h with
  | kept hl => exact .of_rejected hl
  | dropped t hl hm => exact (Accounted.of_rejected hl).append (.recovered t hm .nil)

theorem countP_isResumed_of_rejected {l : List Event} (h : ∀ e ∈ l, e.Rejected) :
    l.countP Event.isResumed = 0 := by
  refine List.countP_eq_zero.2 fun e he => ?_
  obtain ⟨m, rfl, -⟩ := h e he
  exact Bool.false_ne_true

theorem Own.countP_isResumed {o : Option Stmt} {l : List Event} (h : Own o l) :
    l.countP Event.isResumed = if o = none then 1 else 0 := by
  cases h with
  | kept hl => rw [countP_isResumed_of_rejected hl]; rfl
  | dropped t hl hm => rw [List.countP_append, countP_isResumed_of_rejected hl]; rfl

theorem recovering_own {x : Action Stmt} {s t : State} (hok : ∀ a u, x s = .ok a u → Rejects t u)
    (herr : ∀ m u, x s = .error (.mismatch m) u → FailsAtLast t u) {o : Option Stmt} {v : State}
    (h : recovering x s = .ok o v) : ∃ l, v.events = t.events ++ l ∧ Own o l := by
  rw [recovering_run] at h
  split at h
  · rename_i a u hu
    cases h
    exact (hok a _ hu).imp fun l hl => ⟨hl.1, .kept hl.2⟩
  · rename_i m u hu
    cases h
    obtain ⟨l, m, hl, hrej, hm⟩ := herr _ u hu
    refine ⟨_, ?_, .dropped (u.cursor.resume u.depth).current hrej hm⟩
    show u.events ++ _ = _
    rw [hl, List.append_assoc, List.append_assoc]
    rfl
  · cases h

/-- Behind the statements inside of it nothing happens in a statement but that assignments are
rejected, up to an error at which it fails. -/
theorem statementOver_rejects (hh : s.hook.interrupts = []) :
    (∀ a u, statementOver (s.cursor.left + 1) (statementWithin s.cursor.left) s = .ok a u →
      Rejects (inside s) u) ∧
    ∀ m u, statementOver (s.cursor.left + 1) (statementWithin s.cursor.left) s =
      .error (.mismatch m) u → FailsAtLast (inside s) u := by
  by_cases hb : s.cursor.kind = .leftBrace
  · obtain ⟨t, ht⟩ := blockItems_eq_ok (s := s.next.opened.begun) hh (Nat.lt_succ_self _)
    have hinside : inside s = t := by
      rw [inside, if_pos hb, blockStatements, ht]
      rfl
    have hend := keptInside_rejects.blockEnd
      ((itemsWithin (s.next.opened.begun.cursor.left + 1) s.next.opened.begun).filterMap result)
    rw [hinside, statementOver_of_brace hb ht]
    cases hu : blockEnd _ t with
    | ok a u =>
      have hrej : Rejects t u := hend.ok hu
      exact ⟨fun _ _ h => by cases h; exact hrej, fun _ _ h => by cases h⟩
    | error e u =>
      have hfail : ∀ m, e = .mismatch m → FailsAtLast t u := hend.error hu
      exact ⟨fun _ _ h => (by cases h), fun m _ h => by cases h; exact hfail m rfl⟩
  · obtain ⟨hok, herr⟩ := keptInside_rejects.statementOver_of_ne_brace (s.cursor.left + 1)
      (statementWithin s.cursor.left) hb
    rw [inside, if_neg hb]
    exact ⟨hok, fun m u hu => herr _ u hu m rfl⟩

/-- **A statement is dropped exactly if there is a recovery of its own**, behind all that happens
inside of it. -/
theorem statement_own (hh : s.hook.interrupts = []) :
    (final (statement s)).events = (inside s).events ++ own s ∧ Own (result s) (own s) := by
  obtain ⟨hok, herr⟩ := statementOver_rejects hh
  have ho : recovering (statementOver (s.cursor.left + 1) (statementWithin s.cursor.left)) s =
      .ok (result s) (final (statement s)) := statement_eq_ok hh
  obtain ⟨l, hl, hown⟩ := recovering_own hok herr ho
  have heq : own s = l := by rw [own, hl, List.drop_left]
  rw [heq]
  exact ⟨hl, hown⟩

/-! ### Statements one after another -/

/-- What happens in the statements of a block, if the events of each are those of its calls. -/
theorem blockItems_events {f : State → List State} {k fuel : Nat}
    (hf : ∀ u, u.hook.interrupts = [] → u.cursor.left < k →
      (final (statement u)).events = u.events ++ (f u).flatMap own)
    (hh : s.hook.interrupts = []) (hk : s.cursor.left < k) (hn : s.cursor.left < fuel) :
    (final (blockItems statement fuel s)).events =
      s.events ++ ((itemsWithin fuel s).flatMap f).flatMap own := by
  induction fuel generalizing s with
  | zero => omega
  | succ fuel ih =>
    rw [blockItems_run, itemsWithin]
    split_ifs with hend
    · exact (List.append_nil _).symm
    have ho := statement_eq_ok hh
    have hlt := statementWithin_left_lt ho fun h => hend (h.symm.imp_left And.left)
    have hh' : (final (statement s)).hook.interrupts = [] := by rw [hook_final, hh]
    have hfuel : (final (statement s)).cursor.left < fuel := by omega
    have hrest := ih hh' (by omega) hfuel
    obtain ⟨t, ht⟩ := blockItems_eq_ok hh' hfuel
    rw [ht] at hrest
    rw [bind_of_ok ho, bind_of_ok ht, List.flatMap_cons, List.flatMap_append, ← List.append_assoc,
      ← hf s hh hk]
    exact hrest

/-- **What happens in the course of a statement** happens in those inside of it, or in itself. -/
theorem callsWithin_events {fuel : Nat} (hh : s.hook.interrupts = []) (hf : s.cursor.left < fuel) :
    (final (statement s)).events = s.events ++ (callsWithin fuel s).flatMap own := by
  induction fuel generalizing s with
  | zero => omega
  | succ fuel ih =>
    rw [(statement_own hh).1, inside, callsWithin]
    split_ifs with hb
    · have hleft := left_block_lt hb
      have hblock := blockItems_events (s := s.next.opened.begun) (fun u => ih) hh (by omega)
        (Nat.lt_succ_self _)
      rw [blockStatements, hblock, List.flatMap_append, List.append_assoc, List.flatMap_singleton]
      rfl
    · rw [List.flatMap_singleton]

theorem follows_of_mem_itemsWithin {fuel : Nat} {u : State} (h : u ∈ itemsWithin fuel s) :
    Follows s u := by
  induction fuel generalizing s with
  | zero => cases h
  | succ fuel ih =>
    rw [itemsWithin] at h
    split_ifs at h
    · cases h
    rcases List.mem_cons.1 h with rfl | h
    · exact .refl u
    · exact (kept_follows.statement.final s).trans (ih h)

theorem hook_of_mem_callsWithin {fuel : Nat} {u : State} (h : u ∈ callsWithin fuel s) :
    u.hook = s.hook := by
  induction fuel generalizing s with
  | zero => cases h
  | succ fuel ih =>
    rw [callsWithin] at h
    split_ifs at h
    · rcases List.mem_append.1 h with h | h
      · obtain ⟨v, hv, hu⟩ := List.mem_flatMap.1 h
        exact (ih hu).trans (follows_of_mem_itemsWithin hv).hook
      · rw [List.mem_singleton.1 h]
    · rw [List.mem_singleton.1 h]

/-- Fuel beyond the tokens ahead makes no difference to the calls in a statement. -/
theorem callsWithin_eq {n m : Nat} (hn : s.cursor.left < n) (hm : s.cursor.left < m) :
    callsWithin n s = callsWithin m s := by
  induction n generalizing s m with
  | zero => omega
  | succ n ih =>
    obtain ⟨m, rfl⟩ : ∃ i, m = i + 1 := ⟨m - 1, by omega⟩
    rw [callsWithin, callsWithin]
    split_ifs with hb
    · have hleft := left_block_lt hb
      refine congrArg (· ++ [s]) (List.flatMap_congr fun u hu => ?_)
      have hle := (follows_of_mem_itemsWithin hu).leads.left_le
      exact ih (by omega) (by omega)
    · rfl

/-- The calls in a block are those in its statements, and the one for itself. -/
theorem calls_of_brace (hb : s.cursor.kind = .leftBrace) :
    calls s = (itemsWithin (s.next.opened.begun.cursor.left + 1) s.next.opened.begun).flatMap calls ++
      [s] := by
  have hleft := left_block_lt hb
  rw [calls, callsWithin, if_pos hb]
  refine congrArg (· ++ [s]) (List.flatMap_congr fun u hu => ?_)
  have hle := (follows_of_mem_itemsWithin hu).leads.left_le
  exact callsWithin_eq (by omega) (Nat.lt_succ_self _)

theorem calls_of_ne_brace (hb : s.cursor.kind ≠ .leftBrace) : calls s = [s] := by
  rw [calls, callsWithin, if_neg hb]

end Silent

/-! ### Programs -/

/-- The calls in the first so many statements. -/
def callsOfFirst (n : Nat) (s : State) : List State :=
  (List.range n).flatMap fun m => calls (behind m s)

/-- **What happens in a program** is what happens in its statements. -/
theorem Steps.events_eq {s t : State} {p : Program} (h : Steps s p t)
    (hh : s.hook.interrupts = []) :
    t.events = s.events ++ (callsOfFirst p.length s).flatMap own := by
  induction h with
  | nil s => exact (List.append_nil _).symm
  | @cons s t u o p _ ho _ ih =>
    have hht : t.hook.interrupts = [] := by rw [(kept_follows.statement.ok ho).hook, hh]
    have hfirst := callsWithin_events hh (Nat.lt_succ_self s.cursor.left)
    have hbehind : ∀ m, calls (Parse.behind (m + 1) s) = calls (Parse.behind m t) := fun m => by
      rw [behind_succ_of_ok ho]
    rw [ho] at hfirst
    rw [ih hht, show t.events = _ from hfirst, callsOfFirst, callsOfFirst, List.length_cons,
      List.range_succ_eq_map, List.flatMap_cons, List.flatMap_map, List.flatMap_append,
      List.append_assoc]
    simp only [hbehind]
    rfl

theorem hook_behind (m : Nat) (s : State) : (behind m s).hook = s.hook := by
  induction m with
  | zero => rfl
  | succ m ih => rw [behind_succ, hook_final, ih]

theorem hook_of_mem_callsOfFirst {n : Nat} {s c : State} (h : c ∈ callsOfFirst n s) :
    c.hook = s.hook := by
  obtain ⟨m, -, hc⟩ := List.mem_flatMap.1 h
  exact (hook_of_mem_callsWithin hc).trans (hook_behind m s)

/-- Entries are read step by step, up to the place where the budget may stop the work. -/
theorem exists_steps_of_entries {budget fuel : Nat} {s t : State} {p : Program}
    (h : entries budget fuel s = .ok p t) : ∃ u, Steps s p u ∧ (t = u ∨ t = u.stopped) := by
  induction fuel generalizing s p with
  | zero => cases h
  | succ fuel ih =>
    rw [entries_run] at h
    split_ifs at h with hk
    · cases h
      exact ⟨t, .nil t, .inl rfl⟩
    cases ho : statement s with
    | error e u => rw [ho] at h; cases h
    | ok o u =>
      simp only [ho] at h
      split_ifs at h with hb
      · cases h
        exact ⟨u, .cons hk ho (.nil u), .inr rfl⟩
      · obtain ⟨rest, v, hrest, hv⟩ := bind_ok.1 h
        cases hv
        exact (ih hrest).imp fun _ hw => ⟨.cons hk ho hw.1, hw.2⟩

/-- What happens in a program but in no statement is no error. -/
theorem exists_steps_of_program {budget : Nat} {s t : State} {p : Program}
    (h : program budget s = .ok p t) :
    ∃ u, Steps s.begun p u ∧
      t.events.filter Event.isOfError = u.events.filter Event.isOfError := by
  rw [program_run] at h
  split at h
  · cases h
  rename_i q v hv
  cases h
  obtain ⟨u, hu, rfl | rfl⟩ := exists_steps_of_entries hv
  · exact ⟨v, hu, by simp [State.note, Event.isOfError]⟩
  · exact ⟨u, hu, by simp [State.note, State.stopped, Event.isOfError]⟩

/-- As many statements are dropped as there are recoveries. -/
theorem countP_isResumed_flatMap {cs : List State}
    (h : ∀ c ∈ cs, (own c).countP Event.isResumed = if result c = none then 1 else 0) :
    (cs.flatMap own).countP Event.isResumed = cs.countP (fun c => (result c).isNone) := by
  induction cs with
  | nil => rfl
  | cons c cs ih =>
    obtain ⟨hc, hcs⟩ := List.forall_mem_cons.1 h
    rw [List.flatMap_cons, List.countP_append, ih hcs, hc, List.countP_cons, Nat.add_comm]
    cases result c <;> rfl

theorem accounted_flatMap {cs : List State} (h : ∀ c ∈ cs, Accounted (own c)) :
    Accounted (cs.flatMap own) := by
  induction cs with
  | nil => exact .nil
  | cons c cs ih =>
    obtain ⟨hc, hcs⟩ := List.forall_mem_cons.1 h
    exact hc.append (ih hcs)

/-- The entries of a program are what its statements give. -/
theorem Steps.eq_map_result {s t : State} {p : Program} (h : Steps s p t) :
    p = (List.range p.length).map fun m => result (Parse.behind m s) := by
  refine List.ext_getElem (by simp) fun m hm _ => ?_
  rw [List.getElem_map, List.getElem_range, result, (h.entry hm).2]

theorem self_mem_calls (s : State) : s ∈ calls s := by
  by_cases hb : s.cursor.kind = .leftBrace
  · rw [calls_of_brace hb]
    exact List.mem_append_right _ (List.mem_singleton_self s)
  · rw [calls_of_ne_brace hb]
    exact List.mem_singleton_self s

theorem behind_mem_callsOfFirst {m n : Nat} (hm : m < n) (s : State) :
    behind m s ∈ callsOfFirst n s :=
  List.mem_flatMap.2 ⟨m, List.mem_range.2 hm, self_mem_calls _⟩

/-- Errors are events of errors. -/
theorem mismatches_eq_filterMap (s : State) :
    s.mismatches = (s.events.filter Event.isOfError).filterMap Event.mismatch? := by
  rw [State.mismatches, List.filterMap_filter]
  refine List.filterMap_congr fun e _ => ?_
  cases e <;> rfl

/-- **Every error is accounted for.**  With any budget, and a hook that never interrupts, reading goes
on just behind each error that is no rejected assignment, and nowhere else.  All of this happens in
the statements that are read, in whatever block: in a dropped one there is just one recovery of its
own, and none in another one.  So as many of them are dropped as there are errors that are not
rejected assignments, and without such errors none is. -/
theorem errors_are_accounted_for (budget : Nat) {tokens : List Token} {s : State}
    (hs : start? tokens {} = some s) :
    ∃ p t, program budget s = .ok p t ∧
      let w := t.events.filter Event.isOfError
      let cs := callsOfFirst p.length s.begun
      (∀ k, w[0]? ≠ some (.resumed k)) ∧
      (∀ i, (∃ k, w[i + 1]? = some (.resumed k)) ↔
        ∃ m, w[i]? = some (.reported m) ∧ m.rule ≠ .assignment) ∧
      w = cs.flatMap own ∧
      (p = (List.range p.length).map fun m => result (behind m s.begun)) ∧
      (∀ c ∈ cs, (∃ u, statement c = .ok (result c) u) ∧
        (own c).countP Event.isResumed = if result c = none then 1 else 0) ∧
      cs.countP (fun c => (result c).isNone) =
        (t.mismatches.filter (·.rule ≠ .assignment)).length ∧
      ((∀ m ∈ t.mismatches, m.rule = .assignment) → none ∉ p ∧ ∀ c ∈ cs, result c ≠ none) := by
  obtain ⟨-, -, hd, hev, -, hhook⟩ := start?_eq_some.1 hs
  have hh : s.hook.interrupts = [] := by rw [hhook]
  obtain ⟨p, t, hp, -⟩ := program_ok budget hh (Int.le_of_eq hd)
  obtain ⟨u, hsteps, hw⟩ := exists_steps_of_program hp
  have hown : ∀ c ∈ callsOfFirst p.length s.begun, Own (result c) (own c) := fun c hc =>
    (statement_own (by rw [hook_of_mem_callsOfFirst hc]; exact hh)).2
  have hacc := accounted_flatMap fun c hc => (hown c hc).accounted
  have hu := hsteps.events_eq hh
  rw [show s.begun.events = [] from hev, List.nil_append] at hu
  rw [hu, List.filter_eq_self.2 hacc.isOfError] at hw
  have hcount := countP_isResumed_flatMap fun c hc => (hown c hc).countP_isResumed
  rw [hacc.countP_isResumed, ← hw, ← mismatches_eq_filterMap] at hcount
  have hall := hsteps.eq_map_result
  refine ⟨p, t, hp, hw ▸ hacc.head_ne_resumed, hw ▸ hacc.resumed_iff, hw, hall, fun c hc => ?_,
    hcount.symm, fun hm => ?_⟩
  · have hc' : c.hook.interrupts = [] := by rw [hook_of_mem_callsOfFirst hc]; exact hh
    exact ⟨⟨_, statement_eq_ok hc'⟩, (hown c hc).countP_isResumed⟩
  · have hnone : ∀ c ∈ callsOfFirst p.length s.begun, result c ≠ none := by
      have hzero : (t.mismatches.filter (·.rule ≠ .assignment)).length = 0 := by
        rw [List.length_eq_zero_iff, List.filter_eq_nil_iff]
        exact fun m h => by simp [hm m h]
      rw [hzero] at hcount
      exact fun c hc h => List.countP_eq_zero.1 hcount.symm c hc (by rw [h]; rfl)
    refine ⟨fun hmem => ?_, hnone⟩
    rw [hall] at hmem
    obtain ⟨m, hlt, heq⟩ := List.mem_map.1 hmem
    exact hnone _ (behind_mem_callsOfFirst (List.mem_range.1 hlt) _) heq

/-- A stray parenthesis and a rejected assignment in a block, which is dropped in its turn, since no
terminator follows its closing brace. -/
theorem accounts_of_a_dropped_block :
    let l : Token := ⟨.leftBrace, "\x7b", .nil, 1, 1⟩
    let paren : Token := ⟨.rightParen, ")", .nil, 1, 2⟩
    let semicolon : Token := ⟨.semicolon, ";", .nil, 1, 3⟩
    let one : Token := ⟨.number, "1", .nil, 1, 4⟩
    let equals : Token := ⟨.equal, "=", .nil, 1, 5⟩
    let x : Token := ⟨.identifier, "x", .nil, 1, 6⟩
    let r : Token := ⟨.rightBrace, "\x7d", .nil, 1, 7⟩
    let stop : Token := ⟨.endOfInput, "", .nil, 1, 9⟩
    ∃ s p t, start? [l, paren, semicolon, one, equals, x, r, x, stop] {} = some s ∧
      program 0 s = .ok p t ∧ p = [none] ∧
      t.events.filter Event.isOfError =
        [.reported ⟨.expression, "Expect expression.", paren⟩, .resumed one,
          .reported (.invalidAssignment equals),
          .reported ⟨.terminator, "Expect statement terminator after block.", x⟩, .resumed stop] ∧
      (callsOfFirst p.length s.begun).map (fun c => (c.cursor.current, result c)) =
        [(paren, none), (one, some (.expression (.literal .nil))), (l, none)] ∧
      (callsOfFirst p.length s.begun).countP (fun c => (result c).isNone) = 2 := by
  intro l paren semicolon one equals x r stop
  let s : State := { cursor := ⟨[], l, [paren, semicolon, one, equals, x, r, x, stop], rfl⟩ }
  have hs : start? [l, paren, semicolon, one, equals, x, r, x, stop] {} = some s := rfl
  obtain ⟨p, t, hp, -, -, -, -, -, hcount, -⟩ := errors_are_accounted_for 0 hs
  have hgives : Gives 0 [l, paren, semicolon, one, equals, x, r, x, stop] [none]
      [⟨.expression, "Expect expression.", paren⟩, .invalidAssignment equals,
        ⟨.terminator, "Expect statement terminator after block.", x⟩] := by decide +kernel
  obtain ⟨rfl, hms⟩ := hgives.unique ⟨s, t, hs, hp, rfl⟩
  have hevents : (final (program 0 s)).events.filter Event.isOfError =
      [.reported ⟨.expression, "Expect expression.", paren⟩, .resumed one,
        .reported (.invalidAssignment equals),
        .reported ⟨.terminator, "Expect statement terminator after block.", x⟩, .resumed stop] := by
    decide +kernel
  rw [hp] at hevents
  exact ⟨s, [none], t, hs, hp, rfl, hevents, by decide +kernel, by rw [hcount, ← hms]; rfl⟩

end LoxFront.Parse
