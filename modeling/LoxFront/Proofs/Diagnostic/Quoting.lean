import LoxFront.Proofs.Parse.Reports
import LoxFront.Proofs.Text.Lines

/-!
# The quoted line

A diagnostic quotes the line of the source that it is on (`Diagnostic.Quotes`): behind the columns in
front of its place stands what it was found at.

Errors in reading a text quote their rows, the parts between newlines by which lines and columns are
counted.  Errors at tokens quote one of the lines into which `Text.lines` parts the source.  When the
rows in front are lines of their own, this is the row just if that has no other line end in it
(`errors_quote_their_lines`); otherwise it is the part of the row in front of the line end, or when
that happens further up, a line that has nothing to do with the error
(`a_form_feed_moves_the_quoted_line`).
-/

namespace LoxFront

open Lexical

/-! ### The row of a place -/

namespace Lexical

theorem rows_head? (text : List Char) :
    (Text.rows text)[0]? = some (text.takeWhile (· ≠ '\n')) := by
  rcases Text.rows_cases text with ⟨h, hrows⟩ | ⟨row, rest, rfl, h, hrows⟩
  · rw [hrows, List.takeWhile_eq_self_iff.2]
    · rfl
    · exact fun c hc => decide_eq_true (ne_of_mem_of_not_mem hc h)
  · rw [hrows, takeWhile_append_cons]
    · rfl
    · exact fun c hc => decide_eq_true (ne_of_mem_of_not_mem hc h)
    · rfl

/-- The row of a place is found by the number of newlines in front of it. -/
theorem rows_getElem?_count (before rest : List Char) :
    (Text.rows (before ++ rest))[before.count '\n']? = some (lineAround before rest) := by
  induction hn : before.count '\n' generalizing before with
  | zero =>
    have hmem : '\n' ∉ before := List.count_eq_zero.1 hn
    have hfront : lineFront ([] ++ before) = before := lineFront_append hmem
    rw [List.nil_append] at hfront
    rw [rows_head?, lineAround, hfront, List.takeWhile_append_of_pos]
    exact fun c hc => decide_eq_true (ne_of_mem_of_not_mem hc hmem)
  | succ n ih =>
    obtain ⟨row, bs, rfl, hrow⟩ : ∃ row bs, before = row ++ '\n' :: bs ∧ '\n' ∉ row :=
      List.eq_append_cons_of_mem (List.count_pos_iff.1 (by omega))
    have hbs : bs.count '\n' = n := by
      rw [List.count_append, List.count_cons_self, List.count_eq_zero.2 hrow] at hn
      omega
    rw [List.append_assoc, List.cons_append, Text.rows_append_newline hrow,
      List.getElem?_cons_succ, ih bs hbs, lineAround, lineAround, lineFront_append_newline]

theorem toNat_lineAfter (before : List Char) :
    ((lineAfter before : Int) - 1).toNat = before.count '\n' := by
  unfold lineAfter
  omega

theorem toNat_columnAfter (before : List Char) :
    ((columnAfter before : Int) - 1).toNat = (lineFront before).length := by
  unfold columnAfter
  omega

end Lexical

/-! ### What is quoted -/

/-- The characters that a fault is found at. -/
def LexicalFault.found : LexicalFault → List Char
  | .unterminatedString => ['"']
  | .invalidCharacter c => [c]

/-- A diagnostic quotes the row of its place, in which behind the columns in front there is what it
was found at, so far as this is in the row; if that is a newline, the row ends there. -/
def Diagnostic.Quotes (text found : List Char) (d : Diagnostic) : Prop :=
  ∃ l row, d.location = some l ∧ d.sourceLine = some (String.ofList row) ∧
    (0 < l.line ∧ (Text.rows text)[(l.line - 1).toNat]? = some row) ∧
    (0 < l.column ∧ found.takeWhile (· ≠ '\n') <+: row.drop (l.column - 1).toNat) ∧
    (found = ['\n'] → row.drop (l.column - 1).toNat = [])

/-- A diagnostic with the line and column of a place is on the row of the place. -/
theorem quotes_iff {d : Diagnostic} {file : String} {before : List Char}
    (found after : List Char)
    (hl : d.location = some ⟨file, lineAfter before, columnAfter before⟩) :
    d.Quotes (before ++ (found ++ after)) found ↔
      d.sourceLine = some (String.ofList (lineAround before (found ++ after))) := by
  have hline := toNat_lineAfter before
  have hcolumn := toNat_columnAfter before
  have hrow := rows_getElem?_count before (found ++ after)
  have hdrop : (lineAround before (found ++ after)).drop (lineFront before).length =
      (found ++ after).takeWhile (· ≠ '\n') := List.drop_left
  constructor
  · rintro ⟨l, row, hl', hs, ⟨-, hrow'⟩, -⟩
    rw [hl] at hl'
    cases hl'
    rw [hline, hrow] at hrow'
    cases hrow'
    exact hs
  · intro hs
    refine ⟨_, _, hl, hs, ⟨?_, ?_⟩, ⟨?_, ?_⟩, ?_⟩
    · exact Int.natCast_pos.2 (Nat.succ_pos _)
    · rw [hline, hrow]
    · exact Int.natCast_pos.2 (Nat.succ_pos _)
    · rw [hcolumn, hdrop]
      refine prefix_takeWhile ?_ fun c => List.mem_takeWhile_imp
      exact (List.takeWhile_prefix _).trans (List.prefix_append found after)
    · rintro rfl
      rw [hcolumn, hdrop]
      rfl

/-! ### Errors in reading a text -/

theorem found_of_faultOf {rest : List Char} {f : LexicalFault} (h : FaultOf rest f) :
    ∃ after, rest = f.found ++ after := by
  cases h with
  | unterminated _ => exact ⟨_, rfl⟩
  | invalid _ => exact ⟨_, rfl⟩

/-- What stops the reading of a text is quoted with its row. -/
theorem lexicalError_quotes {text : List Char} {e : LexicalError} (h : Token.scan text = .error e)
    (file : String) : (e.diagnostic file).Quotes text e.fault.found := by
  obtain ⟨ps, rest, hsplits, rfl | hno⟩ := exists_splits text
  · rw [scan_of_splits hsplits] at h
    cases h
  · obtain ⟨f, hf, hscan⟩ := scan_of_noPiece hsplits hno
    rw [hscan] at h
    cases h
    obtain ⟨after, rfl⟩ := found_of_faultOf hf
    rw [hsplits.eq_append]
    exact (quotes_iff _ _ rfl).2 rfl

/-! ### Errors at tokens -/

theorem sourceLine?_lineAfter (lines : List String) (before : List Char) :
    sourceLine? lines (lineAfter before) = lines[before.count '\n']? := by
  have hpos : 0 < (lineAfter before : Int) := Int.natCast_pos.2 (Nat.succ_pos _)
  rw [sourceLine?, if_pos hpos, toNat_lineAfter]

/-- In front of some text there is a line for the row of a place. -/
theorem lines_getElem?_count {text : String} {before rest l : List Char}
    (htext : text.toList = before ++ rest) (hrest : rest ≠ [])
    (hfront : ∀ r ∈ (Text.rows text.toList).take (before.count '\n'), ∃ k, Text.Shows r k)
    (h : Text.Shows (lineAround before rest) l) :
    (Text.lines text)[before.count '\n']? = some (String.ofList l) := by
  have hrow := rows_getElem?_count before rest
  rw [← htext] at hrow
  refine Text.linesFrom_getElem? hrow hfront h ?_
  -- if the row is empty, its place is in front of a newline, so that there is another row
  obtain ⟨c, cs, rfl⟩ := List.exists_cons_of_ne_nil hrest
  by_cases hc : c = '\n'
  · subst hc
    have hnext := rows_getElem?_count (before ++ ['\n']) cs
    rw [List.append_assoc, List.singleton_append, ← htext, List.count_append] at hnext
    exact .inr (List.getElem?_eq_some_iff.1 hnext).1
  · refine .inl (List.append_ne_nil_of_right_ne_nil _ ?_)
    rw [List.takeWhile_cons_of_pos (by simpa using hc)]
    exact List.cons_ne_nil _ _

/-- How an error at a token quotes the row `row`, which has the number `n`.  It is quoted as it is only
if there is no line end in it.  When the rows in front are lines, this is enough; and if the row ends
with a carriage return, that is left out. -/
structure QuotesAsLine (text : String) (m : Mismatch) (d : Diagnostic) (n : Nat)
    (row : List Char) : Prop where
  line : m.token.line = n + 1
  isRow : (Text.rows text.toList)[n]? = some row
  noLineEnd : d.Quotes text.toList m.token.lexeme.toList → ∀ c ∈ row, Text.isLineEnd c = false
  quotes : (∀ r ∈ (Text.rows text.toList).take n, ∃ k, Text.Shows r k) →
    (∀ c ∈ row, Text.isLineEnd c = false) → d.Quotes text.toList m.token.lexeme.toList
  shows : (∀ r ∈ (Text.rows text.toList).take n, ∃ k, Text.Shows r k) →
    ∀ l, Text.Shows row l → d.sourceLine = some (String.ofList l)

theorem mismatch_quotes {text : String} {m : Mismatch} (h : Stands text.toList m.token)
    (file : String) :
    ∃ n row, QuotesAsLine text m (m.diagnostic file (Text.lines text)) n row := by
  obtain ⟨before, after, w, htext, hlexeme, hlex, hline, hcolumn⟩ := h
  have hw : w ≠ [] := ne_nil_of_isPiece (.lexeme hlex)
  rw [List.append_assoc] at htext
  have hsource : (m.diagnostic file (Text.lines text)).sourceLine =
      (Text.lines text)[before.count '\n']? := by
    rw [Mismatch.diagnostic, hline, sourceLine?_lineAfter]
  have hplace : (m.diagnostic file (Text.lines text)).location =
      some ⟨file, lineAfter before, columnAfter before⟩ := by
    rw [Mismatch.diagnostic, Token.location, hline, hcolumn]
  have hquotes := quotes_iff w after hplace
  rw [← htext, hsource] at hquotes
  have hshows := fun hfront l hl => hsource.trans
    (lines_getElem?_count (l := l) htext (List.append_ne_nil_of_left_ne_nil hw after) hfront hl)
  have hfound : m.token.lexeme.toList = w := by rw [hlexeme, String.toList_ofList]
  refine ⟨before.count '\n', lineAround before (w ++ after), hline, ?_, fun hq c hc => ?_,
    fun hfront hclean => ?_, hshows⟩
  · rw [htext]
    exact rows_getElem?_count before (w ++ after)
  · rw [hfound, hquotes] at hq
    refine Text.not_isLineEnd_of_mem_linesFrom (List.forall_mem_nil _)
      (List.mem_of_getElem? hq) c ?_
    rwa [String.toList_ofList]
  · rw [hfound, hquotes, ← hsource]
    exact hshows hfront _ ⟨hclean, .inl rfl⟩

/-! ### Both together -/

namespace Parse

section Texts

variable {options : Options} {hook : Hook} {lines : List String} {tokens : List Token}
  {text : String} {o : Outcome}

theorem ofTokens_ok (h : ofTokens options hook lines tokens = .ok o) :
    ∃ s p t, start? tokens hook = some s ∧ program options.maxErrors s = .ok p t ∧
      o = outcome options lines p t := by
  rw [ofTokens] at h
  split at h
  · cases h
  rename_i s hs
  split at h
  · rename_i p t hp
    cases h
    exact ⟨s, p, t, hs, hp, rfl⟩
  · cases h

theorem ofTokens_ne_lexical (e : LexicalError) :
    ofTokens options hook lines tokens ≠ .error (.lexical e) := by
  intro h
  rw [ofTokens] at h
  split at h
  · cases h
  · split at h <;> cases h

/-- A text that is parsed is made of tokens, and its result is that of the program. -/
theorem exists_program_of_ofText (h : ofText options hook text = .ok o) :
    ∃ s p t, Token.scan text.toList = .ok s.cursor.rest ∧ start? s.cursor.rest hook = some s ∧
      program options.maxErrors s = .ok p t ∧
        o.result = (outcome options (Text.lines text) p t).result := by
  rw [ofText] at h
  split at h
  · cases h
  rename_i tokens hscan
  cases hparsed : ofTokens options hook (Text.lines text) tokens with
  | error f =>
    rw [hparsed] at h
    cases h
  | ok parsed =>
    rw [hparsed] at h
    cases h
    obtain ⟨s, p, t, hs, hp, rfl⟩ := ofTokens_ok hparsed
    obtain ⟨rfl, -⟩ := start?_eq_some.1 hs
    exact ⟨s, p, t, hscan, hs, hp, rfl⟩

/-- The errors about a text that is parsed are those of the program. -/
theorem ofText_ok (h : ofText options hook text = .ok o) :
    ∃ s p t, Token.scan text.toList = .ok s.cursor.rest ∧ s.depth = 0 ∧ s.mismatches = [] ∧
      program options.maxErrors s = .ok p t ∧ o.result.collector.errors =
        t.mismatches.map (Mismatch.diagnostic options.file (Text.lines text)) := by
  obtain ⟨s, p, t, hscan, hs, hp, hresult⟩ := exists_program_of_ofText h
  obtain ⟨-, -, hd, hev, -⟩ := start?_eq_some.1 hs
  refine ⟨s, p, t, hscan, hd, ?_, hp, by rw [hresult]; rfl⟩
  rw [State.mismatches, hev]
  rfl

/-- What keeps a text from being made of tokens is found in reading it. -/
theorem scan_of_ofText_lexical {e : LexicalError}
    (h : ofText options hook text = .error (.lexical e)) : Token.scan text.toList = .error e := by
  rw [ofText] at h
  split at h
  · rename_i e' hscan
    cases h
    exact hscan
  rename_i tokens hscan
  cases hparsed : ofTokens options hook (Text.lines text) tokens with
  | ok parsed =>
    rw [hparsed] at h
    cases h
  | error f =>
    rw [hparsed] at h
    cases h
    exact absurd hparsed (ofTokens_ne_lexical e)

end Texts

/-- **Errors quote the line that they are on.**  What stops the reading of a text is always quoted
with its row.  So is what does not fit at a token, if rows and lines are the same: when the rows in
front of it are lines, the row is quoted as it is just if there is no line end in it. -/
theorem errors_quote_their_lines (options : Options) (hook : Hook) (text : String) :
    (∀ e, ofText options hook text = .error (.lexical e) →
      (e.diagnostic options.file).Quotes text.toList e.fault.found) ∧
    ∀ o, ofText options hook text = .ok o → ∀ d ∈ o.result.collector.errors,
      ∃ m, d = m.diagnostic options.file (Text.lines text) ∧
        (m.token.kind ≠ .endOfInput → ∃ n row, QuotesAsLine text m d n row) := by
  refine ⟨fun e h => lexicalError_quotes (scan_of_ofText_lexical h) _, fun o h d hd => ?_⟩
  obtain ⟨s, p, t, hscan, hdepth, hm, hp, herr⟩ := ofText_ok h
  rw [herr] at hd
  obtain ⟨m, hmem, rfl⟩ := List.mem_map.1 hd
  refine ⟨m, rfl, fun hk => ?_⟩
  -- every token but the last one stands in the text
  have htoken := token_mem_of_program (by omega) hm hp hmem
  obtain ⟨ts, hts, hstand, -⟩ := tokens_of_scan hscan
  rw [hts] at htoken
  rcases List.mem_append.1 htoken with hin | hlast
  · exact mismatch_quotes (hstand _ hin).1 _
  · rw [List.mem_singleton.1 hlast] at hk
    exact absurd rfl hk

/-- A carriage return in front of a newline begins no line of its own, so that the error behind them
quotes its row. -/
theorem quoted_behind_a_carriage_return :
    let text := "x\x0d\ny z"
    let z : Token := ⟨.identifier, "z", .nil, 2, 3⟩
    let m : Mismatch := ⟨.terminator, "Expect ';' or EOL after expression.", z⟩
    let d := m.diagnostic "<input>" (Text.lines text)
    ∃ o, ofText {} {} text = .ok o ∧ d ∈ o.result.collector.errors ∧ d.sourceLine = some "y z" ∧
      d.Quotes text.toList z.lexeme.toList := by
  intro text z m d
  have hscan : Token.scan text.toList = .ok
      [⟨.identifier, "x", .nil, 1, 1⟩, ⟨.endOfLine, "\n", .nil, 1, 3⟩, ⟨.identifier, "y", .nil, 2, 1⟩, z,
        ⟨.endOfInput, "", .nil, 2, 4⟩] := by decide +kernel
  have hrun : ∃ o, ofText {} {} text = .ok o ∧ d ∈ o.result.collector.errors :=
    ⟨_, by rw [ofText, hscan]; rfl, List.mem_cons_self⟩
  have hline : d.sourceLine = some "y z" := by decide +kernel
  obtain ⟨o, ho, hd⟩ := hrun
  obtain ⟨m', hm, hquote⟩ := (errors_quote_their_lines {} {} text).2 o ho d hd
  have hm' : m' = m := Cause.mismatch.inj (congrArg Diagnostic.cause hm).symm
  subst hm'
  obtain ⟨n, row, h⟩ := hquote (by decide)
  obtain rfl : n = 1 := by
    have hn : (2 : Int) = n + 1 := h.line
    omega
  have hrows : Text.rows text.toList = ["x\x0d".toList, "y z".toList] := by decide +kernel
  obtain rfl : "y z".toList = row := by
    have hrow := h.isRow
    rw [hrows] at hrow
    exact Option.some.inj hrow
  have hclean : ("y z".toList.all fun c => !Text.isLineEnd c) = true := by decide +kernel
  refine ⟨o, ho, hd, hline, h.quotes ?_ fun c hc => ?_⟩
  · rw [hrows]
    exact fun r hr => ⟨['x'], List.forall_mem_singleton.2 rfl, .inr (List.mem_singleton.1 hr)⟩
  · simpa using List.all_eq_true.1 hclean c hc

/-- A form feed in a comment ends a line, but no row: the error behind it quotes the end of the comment
and not the row that it is on. -/
theorem a_form_feed_moves_the_quoted_line :
    let text := "// a\x0cb\nx y"
    let y : Token := ⟨.identifier, "y", .nil, 2, 3⟩
    let m : Mismatch := ⟨.terminator, "Expect ';' or EOL after expression.", y⟩
    let d := m.diagnostic "<input>" (Text.lines text)
    (∃ o, ofText {} {} text = .ok o ∧ d ∈ o.result.collector.errors) ∧ d.sourceLine = some "b" ∧
      ¬ d.Quotes text.toList y.lexeme.toList := by
  intro text y m d
  have hscan : Token.scan text.toList = .ok
      [⟨.endOfLine, "\n", .nil, 1, 7⟩, ⟨.identifier, "x", .nil, 2, 1⟩, y,
        ⟨.endOfInput, "", .nil, 2, 4⟩] := by decide +kernel
  have hline : d.sourceLine = some "b" := by decide +kernel
  refine ⟨⟨_, by rw [ofText, hscan]; rfl, List.mem_cons_self⟩, hline, ?_⟩
  -- the row is not what is quoted
  rintro ⟨l, row, hl, hs, ⟨-, hrow⟩, -⟩
  cases hl
  have hrows : Text.rows text.toList = ["// a\x0cb".toList, "x y".toList] := by decide +kernel
  rw [hrows] at hrow
  obtain rfl : "x y".toList = row := Option.some.inj hrow
  rw [hline] at hs
  exact absurd hs (by decide)

end Parse

end LoxFront
