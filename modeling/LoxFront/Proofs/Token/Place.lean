import LoxFront.Token.Scan
import Mathlib.Data.List.Count
import Mathlib.Data.List.Induction
import Mathlib.Data.List.TakeWhile

/-!
# Places in a text

A place in a text is known by the characters in front of it: the number of newlines among them gives
its line, and the characters behind the last newline its column (`lineAfter`, `columnAfter`).  A
`Reader` keeps both while it moves on, together with the line that it is on (`skip_readerAt`).

Places further on have greater lines, or greater columns on the same line (`place_lt_of_append`).
-/

namespace LoxFront.Lexical

/-! ### Lines and columns -/

/-- The line of the place behind some characters.  Lines count from one. -/
def lineAfter (before : List Char) : Nat := before.count '\n' + 1

/-- What the characters in front of a place have of its line. -/
def lineFront (before : List Char) : List Char := (before.reverse.takeWhile (· ≠ '\n')).reverse

/-- The column of the place behind some characters.  Columns count from one. -/
def columnAfter (before : List Char) : Nat := (lineFront before).length + 1

/-- The line with the place between some characters and the rest of a text. -/
def lineAround (before rest : List Char) : List Char :=
  lineFront before ++ rest.takeWhile (· ≠ '\n')

theorem lineAfter_append (as bs : List Char) :
    lineAfter (as ++ bs) = lineAfter as + bs.count '\n' := by
  simp only [lineAfter, List.count_append]
  omega

theorem newline_notMem_lineFront (before : List Char) : '\n' ∉ lineFront before := by
  intro h
  simpa using List.mem_takeWhile_imp (List.mem_reverse.1 h)

/-- Without a newline the line goes on. -/
theorem lineFront_append {as bs : List Char} (h : '\n' ∉ bs) :
    lineFront (as ++ bs) = lineFront as ++ bs := by
  have hbs : ∀ c ∈ bs.reverse, decide (c ≠ '\n') = true := fun c hc =>
    decide_eq_true (ne_of_mem_of_not_mem (List.mem_reverse.1 hc) h)
  rw [lineFront, lineFront, List.reverse_append, List.takeWhile_append_of_pos hbs,
    List.reverse_append, List.reverse_reverse]

/-- A newline begins a line. -/
theorem lineFront_newline (as : List Char) : lineFront (as ++ ['\n']) = [] := by
  rw [lineFront, List.reverse_append]
  rfl

/-- What is in front of a newline does not matter behind it. -/
theorem lineFront_append_newline (as bs : List Char) : lineFront (as ++ '\n' :: bs) = lineFront bs := by
  induction bs using List.reverseRecOn with
  | nil => exact lineFront_newline as
  | append_singleton bs c ih =>
    have happend : as ++ '\n' :: (bs ++ [c]) = as ++ '\n' :: bs ++ [c] := by simp
    rw [happend]
    by_cases hc : c = '\n'
    · rw [hc, lineFront_newline, lineFront_newline]
    · have hmem : '\n' ∉ [c] := by simpa using Ne.symm hc
      rw [lineFront_append hmem, lineFront_append hmem, ih]

/-- **Places further on** are on a later line, or on the same line in a later column. -/
theorem place_lt_of_append (as : List Char) {bs : List Char} (h : bs ≠ []) :
    lineAfter as < lineAfter (as ++ bs) ∨
      lineAfter as = lineAfter (as ++ bs) ∧ columnAfter as < columnAfter (as ++ bs) := by
  rw [lineAfter_append]
  by_cases hmem : '\n' ∈ bs
  · have hcount := List.count_pos_iff.2 hmem
    exact .inl (by omega)
  · have hlength := List.length_pos_iff.2 h
    refine .inr ⟨by rw [List.count_eq_zero.2 hmem]; rfl, ?_⟩
    simp only [columnAfter, lineFront_append hmem, List.length_append]
    omega

/-! ### Readers -/

/-- The reader between some characters and the rest of a text. -/
def readerAt (before rest : List Char) : Reader :=
  ⟨rest, lineAfter before, columnAfter before, lineFront before ++ rest⟩

theorem start_eq (text : List Char) : Reader.start text = readerAt [] text := rfl

theorem next_readerAt (before : List Char) (c : Char) (rest : List Char) :
    (readerAt before (c :: rest)).next = readerAt (before ++ [c]) rest := by
  simp only [readerAt, Reader.next, lineAfter_append, columnAfter]
  split_ifs with hc
  · subst hc
    rw [lineFront_newline]
    rfl
  · have hmem : '\n' ∉ [c] := by simpa using Ne.symm hc
    rw [lineFront_append hmem, List.count_eq_zero.2 hmem, List.append_assoc]
    simp only [List.length_append, List.length_singleton, Nat.add_zero, List.singleton_append]

/-- Behind some more characters a reader is where these are in front. -/
theorem skip_readerAt (before as rest : List Char) :
    (readerAt before (as ++ rest)).skip as.length = readerAt (before ++ as) rest := by
  induction as generalizing before with
  | nil => rw [List.append_nil]; rfl
  | cons c as ih =>
    rw [List.cons_append, List.length_cons, Reader.skip, next_readerAt, ih, List.append_assoc,
      List.singleton_append]

theorem currentLine_readerAt (before rest : List Char) :
    (readerAt before rest).currentLine = lineAround before rest := by
  have hfront : ∀ c ∈ lineFront before, decide (c ≠ '\n') = true := fun c hc =>
    decide_eq_true (ne_of_mem_of_not_mem hc (newline_notMem_lineFront before))
  exact List.takeWhile_append_of_pos hfront

end LoxFront.Lexical
