import LoxFront.Parse.Cursor
import Mathlib.Tactic.ByContra
import Mathlib.Tactic.SplitIfs

/-!
# How a cursor moves

Every move of a cursor is a sequence of single steps (`Cursor.Leads`), so it only takes tokens off
the front of those that are left, and never an end-of-input token (`Cursor.Leads.exists_taken`).

* `Cursor.skipLines_rest` : passing line ends drops the longest run of them;
* `Cursor.passTerminator?_eq_some` : what a terminator takes;
* `Cursor.resume_left_lt` : recovery from an error moves on, except where it is stuck.
-/

namespace LoxFront

namespace Cursor

/-- The kind of the token under the cursor. -/
abbrev kind (c : Cursor) : Kind := c.current.kind

/-- The tokens from the cursor on. -/
def rest (c : Cursor) : List Token := c.current :: c.ahead

/-- The number of tokens ahead. -/
def left (c : Cursor) : Nat := c.ahead.length

/-! ### Single steps -/

theorem length_rest (c : Cursor) : c.rest.length = c.left + 1 := rfl

theorem ext_rest {c d : Cursor} (hp : c.passed = d.passed) (hr : c.rest = d.rest) : c = d := by
  obtain ⟨p, t, ts, h⟩ := c
  obtain ⟨p', t', ts', h'⟩ := d
  simp only [rest, List.cons.injEq] at hp hr
  obtain ⟨rfl, rfl⟩ := hr
  subst hp
  rfl

theorem atEnd_iff {c : Cursor} : c.atEnd = true ↔ c.kind = .endOfInput := by
  simp [atEnd]

theorem sees_iff {c : Cursor} {k : Kind} (hk : k ≠ .endOfInput) :
    c.sees k = true ↔ c.kind = k := by
  simp only [sees, Bool.and_eq_true, Bool.not_eq_true', beq_iff_eq, and_iff_right_iff_imp]
  intro h
  simp [atEnd, h, hk]

theorem advance_of_end {c : Cursor} (h : c.kind = .endOfInput) : c.advance = c := by
  obtain ⟨p, t, ts, hts⟩ := c
  cases ts with
  | nil => rfl
  | cons u us => simp only [advance, show t.kind = .endOfInput from h, ↓reduceIte]

/-- Only the end of the input may have nothing behind it. -/
theorem rest_advance {c : Cursor} (h : c.kind ≠ .endOfInput) :
    c.rest = c.current :: c.advance.rest ∧ c.advance.passed = c.current :: c.passed := by
  obtain ⟨p, t, ts, hts⟩ := c
  cases ts with
  | nil => exact absurd hts h
  | cons u us => simp only [advance, show t.kind ≠ .endOfInput from h, ↓reduceIte, rest, and_self]

theorem left_advance {c : Cursor} (h : c.kind ≠ .endOfInput) : c.advance.left + 1 = c.left := by
  have := congrArg List.length (rest_advance h).1
  simp only [length_rest, List.length_cons] at this
  omega

/-- Induction on the tokens ahead. -/
@[elab_as_elim]
theorem advance_induction {P : Cursor → Prop}
    (h : ∀ c, (c.kind ≠ .endOfInput → P c.advance) → P c) (c : Cursor) : P c := by
  -- the induction is on the number of tokens ahead, which every step makes smaller
  induction hn : c.left generalizing c with
  | zero =>
    refine h c fun hc => ?_
    have := left_advance hc
    omega
  | succ n ih =>
    refine h c fun hc => ih _ ?_
    have := left_advance hc
    omega

/-! ### Sequences of steps -/

/-- Single steps take one cursor to the other. -/
inductive Leads : Cursor → Cursor → Prop
  | refl (c : Cursor) : Leads c c
  | step {c d : Cursor} : c.kind ≠ .endOfInput → Leads c.advance d → Leads c d

namespace Leads

theorem trans {c d e : Cursor} (h : Leads c d) (h' : Leads d e) : Leads c e := by
  induction h with
  | refl => exact h'
  | step hk _ ih => exact .step hk (ih h')

theorem advance (c : Cursor) : Leads c c.advance := by
  by_cases hk : c.kind = .endOfInput
  · rw [advance_of_end hk]; exact .refl c
  · exact .step hk (.refl _)

/-- The tokens that are taken come off the front of those that are left. -/
theorem exists_taken {c d : Cursor} (h : Leads c d) :
    ∃ taken, (∀ t ∈ taken, t.kind ≠ .endOfInput) ∧ c.rest = taken ++ d.rest ∧
      d.passed = taken.reverse ++ c.passed := by
  induction h with
  | refl c => exact ⟨[], by simp, rfl, rfl⟩
  | @step c d hk _ ih =>
    obtain ⟨taken, ht, hr, hp⟩ := ih
    obtain ⟨hr', hp'⟩ := rest_advance hk
    refine ⟨c.current :: taken, ?_, ?_, ?_⟩
    · simpa using ⟨hk, ht⟩
    · rw [hr', hr, List.cons_append]
    · rw [hp, hp', List.reverse_cons, List.append_assoc, List.singleton_append]

theorem left_le {c d : Cursor} (h : Leads c d) : d.left ≤ c.left := by
  obtain ⟨taken, -, hr, -⟩ := h.exists_taken
  have := congrArg List.length hr
  simp only [length_rest, List.length_append] at this
  omega

theorem index_add_left {c d : Cursor} (h : Leads c d) :
    d.index + d.left = c.index + c.left := by
  obtain ⟨taken, -, hr, hp⟩ := h.exists_taken
  have h1 := congrArg List.length hr
  have h2 := congrArg List.length hp
  simp only [length_rest, List.length_append, List.length_reverse] at h1 h2
  unfold index
  omega

theorem eq_of_left_eq {c d : Cursor} (h : Leads c d) (hl : d.left = c.left) : d = c := by
  obtain ⟨taken, -, hr, hp⟩ := h.exists_taken
  have := congrArg List.length hr
  simp only [length_rest, List.length_append] at this
  obtain rfl : taken = [] := List.eq_nil_of_length_eq_zero (by omega)
  exact ext_rest (by simpa using hp) (by simpa using hr.symm)

end Leads

/-! ### Line ends -/

theorem skipLines_of_line {c : Cursor} (h : c.kind = .endOfLine) :
    c.skipLines = c.advance.skipLines := by
  obtain ⟨p, t, ts, hts⟩ := c
  have ht : t.kind = .endOfLine := h
  cases ts with
  | nil => exact absurd (ht.symm.trans hts) (by decide)
  | cons u us => simp [skipLines, skipLinesFrom, advance, ht]

theorem skipLines_of_ne {c : Cursor} (h : c.kind ≠ .endOfLine) : c.skipLines = c := by
  obtain ⟨p, t, ts, hts⟩ := c
  cases ts with
  | nil => rfl
  | cons u us => simp only [skipLines, skipLinesFrom, show t.kind ≠ .endOfLine from h, ↓reduceIte]

theorem Leads.skipLines (c : Cursor) : Leads c c.skipLines := by
  induction c using advance_induction with
  | h c ih =>
    by_cases h : c.kind = .endOfLine
    · have hk : c.kind ≠ .endOfInput := by rw [h]; decide
      rw [skipLines_of_line h]
      exact .step hk (ih hk)
    · rw [skipLines_of_ne h]
      exact .refl c

theorem skipLines_rest (c : Cursor) :
    c.skipLines.rest = c.rest.dropWhile (·.kind == .endOfLine) := by
  induction c using advance_induction with
  | h c ih =>
    by_cases h : c.kind = .endOfLine
    · have hk : c.kind ≠ .endOfInput := by rw [h]; decide
      rw [skipLines_of_line h, ih hk, (rest_advance hk).1, List.dropWhile_cons]
      simp [show c.current.kind = .endOfLine from h]
    · rw [skipLines_of_ne h, rest, List.dropWhile_cons]
      simp [show c.current.kind ≠ .endOfLine from h]

theorem skipLines_kind (c : Cursor) : c.skipLines.kind ≠ .endOfLine := by
  induction c using advance_induction with
  | h c ih =>
    by_cases h : c.kind = .endOfLine
    · rw [skipLines_of_line h]
      exact ih (by rw [h]; decide)
    · rwa [skipLines_of_ne h]

/-! ### Terminators -/

variable {depth : Int} {c d : Cursor}

theorem passTerminator?_eq_some :
    c.passTerminator? depth = some d ↔
      c.kind = .endOfInput ∧ d = c ∨ c.kind = .endOfLine ∧ d = c.skipLines ∨
        c.kind = .semicolon ∧ d = c.advance.skipLines ∨
          (c.kind = .rightBrace ∧ 0 < depth) ∧ d = c := by
  unfold passTerminator?
  cases hk : c.current.kind <;> simp [kind, hk, eq_comm]

theorem passTerminator?_eq_none :
    c.passTerminator? depth = none ↔
      c.kind ≠ .endOfInput ∧ c.kind ≠ .endOfLine ∧ c.kind ≠ .semicolon ∧
        ¬ (c.kind = .rightBrace ∧ 0 < depth) := by
  unfold passTerminator?
  cases hk : c.current.kind <;> simp [kind, hk]

theorem Leads.passTerminator (h : c.passTerminator? depth = some d) : Leads c d := by
  rcases passTerminator?_eq_some.1 h with ⟨-, rfl⟩ | ⟨-, rfl⟩ | ⟨-, rfl⟩ | ⟨-, rfl⟩
  · exact .refl _
  · exact .skipLines c
  · exact (advance c).trans (.skipLines _)
  · exact .refl _

/-! ### Recovery -/

/-- A place that no statement and no recovery leaves: the end of the input, or inside a block its
closing brace. -/
def Stuck (depth : Int) (c : Cursor) : Prop :=
  c.kind = .endOfInput ∨ c.kind = .rightBrace ∧ 0 < depth

theorem seek_eq (depth : Int) (c : Cursor) :
    c.seek depth =
      if c.kind = .endOfInput ∨ c.kind.startsStatement then c
      else match c.passTerminator? depth with
        | some d => d
        | none => c.advance.seek depth := by
  obtain ⟨p, t, ts, hts⟩ := c
  cases ts with
  | nil => exact (if_pos (.inl hts)).symm
  | cons u us =>
    by_cases he : t.kind = .endOfInput
    · simp [seek, seekFrom, kind, he, Kind.startsStatement, passTerminator?]
    by_cases hs : t.kind.startsStatement = true
    · simp only [seek, seekFrom, kind, hs, or_true, ↓reduceIte]
    · have hadv : advance ⟨p, t, u :: us, hts⟩ = ⟨t :: p, u, us, hts⟩ := by
        simp only [advance, he, ↓reduceIte]
      have hseek : seekFrom depth p t (u :: us) hts =
          match passTerminator? depth ⟨p, t, u :: us, hts⟩ with
          | some d => d
          | none => seekFrom depth (t :: p) u us hts := by
        unfold seekFrom
        exact if_neg hs
      rw [hadv, if_neg (by simp [kind, he, hs])]
      exact hseek

theorem Leads.seek (depth : Int) (c : Cursor) : Leads c (c.seek depth) := by
  induction c using advance_induction with
  | h c ih =>
    rw [seek_eq]
    split
    · exact .refl c
    · rename_i hk
      split
      · exact .passTerminator ‹_›
      · exact .step (fun h => hk (.inl h)) (ih fun h => hk (.inl h))

theorem Leads.resume (depth : Int) (c : Cursor) : Leads c (c.resume depth) := by
  unfold Cursor.resume
  split
  · exact .passTerminator ‹_›
  · exact (advance c).trans (.seek depth _)

theorem resume_of_stuck (h : c.Stuck depth) : c.resume depth = c := by
  have : c.passTerminator? depth = some c := by
    rw [passTerminator?_eq_some]
    rcases h with h | h <;> simp [h]
  rw [resume, this]

/-- Recovery goes beyond the token under the cursor, except where it is stuck. -/
theorem Leads.advance_resume (h : ¬ c.Stuck depth) : Leads c.advance (c.resume depth) := by
  unfold Cursor.resume
  split
  · rename_i d hd
    rcases passTerminator?_eq_some.1 hd with ⟨h', -⟩ | ⟨hl, rfl⟩ | ⟨-, rfl⟩ | ⟨h', -⟩
    · exact absurd (.inl h') h
    · rw [skipLines_of_line hl]
      exact .skipLines _
    · exact .skipLines _
    · exact absurd (.inr h') h
  · exact .seek depth _

/-- Recovery moves on, except where it is stuck. -/
theorem resume_left_lt (h : ¬ c.Stuck depth) : (c.resume depth).left < c.left := by
  have hadv := left_advance fun hk => h (.inl hk)
  have hle := (Leads.advance_resume h).left_le
  omega

end Cursor

end LoxFront
