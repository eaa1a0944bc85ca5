import LoxFront.Text.Lines

/-!
# Two ways to part a text into lines

Newlines part a text into its rows (`rows`), which are one more than its newlines (`length_rows`), and
texts with newlines between them are the rows as long as each is one line (`rows_intercalate_iff`).
`lines` parts a text wherever any convention ends a line, so a row may be more than one of its lines.
As long as the rows have no other line ends in them, but for a carriage return in front of the newline,
both count alike, and a line is its row without that carriage return (`linesFrom_getElem?`).  A row with
another line end in it is none of the lines (`not_isLineEnd_of_mem_linesFrom`).
-/

namespace LoxFront.Text

/-! ### Rows -/

/-- The parts of a text between newlines. -/
def rows (text : List Char) : List (List Char) := text.splitOn '\n'

theorem rows_of_notMem {text : List Char} (h : '\n' ∉ text) : rows text = [text] := by
  rw [rows, List.splitOn_eq_splitOnP, List.splitOnP_eq_singleton]
  exact fun c hc => beq_false_of_ne (ne_of_mem_of_not_mem hc h)

theorem rows_append_newline {row : List Char} (h : '\n' ∉ row) (rest : List Char) :
    rows (row ++ '\n' :: rest) = row :: rows rest := by
  have hrow := rows_of_notMem h
  rw [rows, List.splitOn_eq_splitOnP] at hrow ⊢
  rw [List.splitOnP_append_cons (p := (· == '\n')) _ _ (beq_self_eq_true '\n'), hrow, rows,
    List.splitOn_eq_splitOnP]
  rfl

/-- A text is one row, or a row in front of the others. -/
theorem rows_cases (text : List Char) :
    ('\n' ∉ text ∧ rows text = [text]) ∨
      ∃ row rest, text = row ++ '\n' :: rest ∧ '\n' ∉ row ∧ rows text = row :: rows rest := by
  by_cases h : '\n' ∈ text
  · obtain ⟨row, rest, rfl, hrow⟩ := List.eq_append_cons_of_mem h
    exact .inr ⟨row, rest, rfl, hrow, rows_append_newline hrow rest⟩
  · exact .inl ⟨h, rows_of_notMem h⟩

theorem newline_notMem_of_mem_rows {text row : List Char} (h : row ∈ rows text) : '\n' ∉ row := by
  induction hn : text.length using Nat.strongRecOn generalizing text with
  | _ n ih =>
    rcases rows_cases text with ⟨hno, hrows⟩ | ⟨first, rest, rfl, hfirst, hrows⟩
    · rw [hrows] at h
      rwa [List.mem_singleton.1 h]
    · rw [hrows] at h
      rcases List.mem_cons.1 h with rfl | h
      · exact hfirst
      · refine ih rest.length ?_ h rfl
        rw [← hn, List.length_append, List.length_cons]
        omega

/-- Texts with newlines between them are the rows just if none of them has a newline in it. -/
theorem rows_intercalate_iff {ls : List (List Char)} (hne : ls ≠ []) :
    rows (['\n'].intercalate ls) = ls ↔ ∀ l ∈ ls, '\n' ∉ l := by
  refine ⟨fun h l hl => ?_, fun h => ?_⟩
  · rw [← h] at hl
    exact newline_notMem_of_mem_rows hl
  · exact List.splitOn_intercalate '\n' h hne

/-- There is one row more than there are newlines. -/
theorem length_rows (text : List Char) : (rows text).length = text.count '\n' + 1 := by
  induction hn : text.length using Nat.strongRecOn generalizing text with
  | _ n ih =>
    rcases rows_cases text with ⟨hno, hrows⟩ | ⟨row, rest, rfl, hrow, hrows⟩
    · rw [hrows, List.count_eq_zero.2 hno]
      rfl
    · have hlen : rest.length < n := by
        rw [← hn, List.length_append, List.length_cons]
        omega
      rw [hrows, List.length_cons, ih _ hlen rest rfl, List.count_append, List.count_eq_zero.2 hrow,
        List.count_cons_self]
      omega

/-- A text without a newline in it. -/
def OneLine (s : String) : Prop := '\n' ∉ s.toList

instance (s : String) : Decidable (OneLine s) := inferInstanceAs (Decidable ('\n' ∉ s.toList))

theorem oneLine_append {a b : String} : OneLine (a ++ b) ↔ OneLine a ∧ OneLine b := by
  rw [OneLine, String.toList_append, List.mem_append, not_or]
  rfl

/-! ### Lines -/

/-- A row is the line `l`, perhaps with a carriage return behind it. -/
def Shows (row l : List Char) : Prop :=
  (∀ c ∈ l, isLineEnd c = false) ∧ (row = l ∨ row = l ++ ['\r'])

variable {row l text soFar : List Char}

/-- Up to a line end the characters belong to one line. -/
theorem linesFrom_append (h : ∀ c ∈ l, isLineEnd c = false) (soFar rest : List Char) :
    linesFrom soFar (l ++ rest) = linesFrom (l.reverse ++ soFar) rest := by
  induction l generalizing soFar with
  | nil => rfl
  | cons c l ih =>
    obtain ⟨hc, hl⟩ := List.forall_mem_cons.1 h
    have hne : c ≠ '\r' := by
      rintro rfl
      cases hc
    have hstep : linesFrom soFar (c :: (l ++ rest)) = linesFrom (c :: soFar) (l ++ rest) := by
      rw [linesFrom, if_neg (by rw [hc]; decide)]
      exact fun _ h => absurd h hne
    rw [List.cons_append, hstep, ih hl, List.reverse_cons, List.append_assoc]
    rfl

/-- A row that ends with a newline is one line. -/
theorem linesFrom_newline (h : Shows row l) (rest : List Char) :
    linesFrom [] (row ++ '\n' :: rest) = String.ofList l :: linesFrom [] rest := by
  have hl : String.ofList (l.reverse ++ []).reverse = String.ofList l := by simp
  obtain ⟨hclean, rfl | rfl⟩ := h
  · rw [linesFrom_append hclean, ← hl]
    rfl
  · rw [List.append_assoc, linesFrom_append hclean, ← hl]
    rfl

/-- The last row of a text is one line, unless there is nothing in it. -/
theorem linesFrom_last (h : Shows row l) (hne : row ≠ []) : linesFrom [] row = [String.ofList l] := by
  have hl : (l.reverse ++ []).reverse = l := by simp
  obtain ⟨hclean, rfl | rfl⟩ := h
  · have hlast := linesFrom_append hclean [] []
    rw [List.append_nil] at hlast
    rw [hlast, linesFrom, if_neg (by simpa using hne), hl]
  · rw [linesFrom_append hclean, linesFrom, if_pos (by decide), hl]
    · rfl
    · exact fun _ _ h => nomatch h

/-- **Where the rows have no other line ends in them the lines are the rows**, without the carriage
return at their ends. -/
theorem linesFrom_getElem? {n : Nat} (hrow : (rows text)[n]? = some row)
    (hfront : ∀ r ∈ (rows text).take n, ∃ k, Shows r k) (h : Shows row l)
    (hne : row ≠ [] ∨ n + 1 < (rows text).length) :
    (linesFrom [] text)[n]? = some (String.ofList l) := by
  induction n generalizing text with
  | zero =>
    rcases rows_cases text with ⟨-, hrows⟩ | ⟨r, rest, rfl, -, hrows⟩
    · rw [hrows] at hrow hne
      cases hrow
      rw [linesFrom_last h (hne.resolve_right (by simp))]
      rfl
    · rw [hrows] at hrow
      cases hrow
      rw [linesFrom_newline h]
      rfl
  | succ n ih =>
    rcases rows_cases text with ⟨-, hrows⟩ | ⟨r, rest, rfl, -, hrows⟩
    · rw [hrows] at hrow
      cases hrow
    · rw [hrows] at hrow hfront hne
      rw [List.take_succ_cons] at hfront
      obtain ⟨⟨k, hk⟩, hfront⟩ := List.forall_mem_cons.1 hfront
      rw [linesFrom_newline hk, List.getElem?_cons_succ]
      exact ih hrow hfront (hne.imp_right Nat.lt_of_succ_lt_succ)

/-- There is no line end within a line. -/
theorem not_isLineEnd_of_mem_linesFrom (h : ∀ c ∈ soFar, isLineEnd c = false) {s : String}
    (hs : s ∈ linesFrom soFar text) : ∀ c ∈ s.toList, isLineEnd c = false := by
  -- a line consists of characters that are no line ends, and the next one begins with none
  have hline : ∀ {k : List Char} {ls : List String}, (∀ c ∈ k, isLineEnd c = false) →
      (s ∈ ls → ∀ c ∈ s.toList, isLineEnd c = false) → s ∈ String.ofList k.reverse :: ls →
        ∀ c ∈ s.toList, isLineEnd c = false := by
    intro k ls hk hls hs
    rcases List.mem_cons.1 hs with rfl | hs
    · rw [String.toList_ofList]
      exact fun c hc => hk c (List.mem_reverse.1 hc)
    · exact hls hs
  induction soFar, text using linesFrom.induct with
  | case1 => cases hs
  | case2 soFar hne =>
    rw [linesFrom, if_neg hne] at hs
    exact hline h (fun hs => by cases hs) hs
  | case3 soFar rest ih => exact hline h (ih (List.forall_mem_nil _)) hs
  | case4 soFar c rest hcr hc ih =>
    rw [linesFrom, if_pos hc] at hs
    · exact hline h (ih (List.forall_mem_nil _)) hs
    · exact hcr
  | case5 soFar c rest hcr hc ih =>
    rw [linesFrom, if_neg hc] at hs
    · exact ih (List.forall_mem_cons.2 ⟨by simpa using hc, h⟩) hs
    · exact hcr

end LoxFront.Text
