import LoxFront.Proofs.Parse.Origin
import LoxFront.Proofs.Parse.Wording
import LoxFront.Proofs.Token.Spaces

/-!
# The rows of a diagnostic

The text of a diagnostic at a place is meant to have one row for each thing in it: the header, the line
of the source and the caret under it, and the hint (`Diagnostic.layout`).  It has just these rows unless
a newline is in one of them (`laidOut_iff`).

There is none in what is quoted from the source, in the messages, and in the hints.  The header of an
error at a token has the lexeme in it, though, and a string may go over several lines.  So all errors
are laid out but for those at such strings (`errors_are_laid_out`), whose header takes more than one row
(`a_string_breaks_the_header`).
-/

namespace LoxFront

open Lexical

/-! ### The layout -/

/-- The rows that a diagnostic at a place is meant to have. -/
def Diagnostic.layout (d : Diagnostic) (file : String) (line column : Nat) : List String :=
  let header :=
    file ++ ":" ++ toString line ++ ":" ++ toString column ++ ": error: " ++ d.cause.description
  let context := d.sourceLine.elim [] fun source =>
    ["    " ++ source, String.ofList (List.replicate (4 + column - 1) ' ' ++ ['^'])]
  let advice := d.hint.elim [] fun hint => ["hint: " ++ hint]
  header :: context ++ advice

/-- The text of a diagnostic in a file has these rows. -/
def Diagnostic.LaidOut (file : String) (d : Diagnostic) : Prop :=
  ∃ line column : Nat, d.location = some ⟨file, line, column⟩ ∧
    Text.rows d.text.toList = (d.layout file line column).map String.toList

section Rows

variable {d : Diagnostic} {file : String} {line column : Nat}

/-- The text is made of these rows. -/
theorem Diagnostic.text_eq (hl : d.location = some ⟨file, line, column⟩) (hcolumn : 0 < column)
    (hhint : ∀ hint ∈ d.hint, hint ≠ "") : d.text = "\n".intercalate (d.layout file line column) := by
  have hheader : d.header = file ++ ":" ++ toString line ++ ":" ++ toString column ++ ": error: " ++
      d.cause.description := by
    rw [Diagnostic.header, hl]
    simp only [Location.text, String.append_assoc]
    rfl
  have hcontext : d.context = d.sourceLine.elim [] fun source =>
      ["    " ++ source, String.ofList (List.replicate (4 + column - 1) ' ' ++ ['^'])] := by
    have hpos : 0 < (column : Int) := Int.natCast_pos.2 hcolumn
    rw [Diagnostic.context, hl, show 4 + column - 1 = column + 3 by omega, String.ofList_append]
    cases d.sourceLine with
    | none => rfl
    | some source => simp only [hpos, ↓reduceIte, Int.toNat_natCast, Option.elim_some]
  have hadvice : d.advice = d.hint.elim [] fun hint => ["hint: " ++ hint] := by
    rw [Diagnostic.advice]
    split
    · rename_i h
      rw [h]
      rfl
    · rename_i h
      exact absurd rfl (hhint _ h)
    · rename_i h
      rw [h]
      rfl
  rw [Diagnostic.text, hheader, hcontext, hadvice, Diagnostic.layout]

/-- The text has these rows just if there is no newline in any of them. -/
theorem laidOut_iff_forall (hl : d.location = some ⟨file, line, column⟩) (hcolumn : 0 < column)
    (hhint : ∀ hint ∈ d.hint, hint ≠ "") :
    d.LaidOut file ↔ ∀ row ∈ d.layout file line column, Text.OneLine row := by
  have hne : (d.layout file line column).map String.toList ≠ [] := List.cons_ne_nil _ _
  have hrows := Text.rows_intercalate_iff hne
  rw [List.forall_mem_map] at hrows
  rw [Diagnostic.LaidOut, Diagnostic.text_eq hl hcolumn hhint, String.toList_intercalate]
  refine ⟨fun ⟨l, c, hl', h⟩ => ?_, fun h => ⟨line, column, hl, hrows.2 h⟩⟩
  rw [hl] at hl'
  cases hl'
  exact hrows.1 h

theorem oneLine_toString (n : Nat) : Text.OneLine (toString n) := by
  intro h
  have hdigits : (toString n).toList = Nat.toDigits 10 n := String.toList_ofList
  rw [hdigits] at h
  exact absurd (Nat.isDigit_of_mem_toDigits (by omega) (by omega) h) (by decide)

/-- **A diagnostic is laid out just if there is no newline in its description**, where there is none in
the rest of it. -/
theorem laidOut_iff (hl : d.location = some ⟨file, line, column⟩) (hcolumn : 0 < column)
    (hfile : Text.OneLine file) (hsource : ∀ source ∈ d.sourceLine, Text.OneLine source)
    (hhint : ∀ hint ∈ d.hint, hint ≠ "" ∧ Text.OneLine hint) :
    d.LaidOut file ↔ Text.OneLine d.cause.description := by
  rw [laidOut_iff_forall hl hcolumn fun hint h => (hhint hint h).1]
  refine ⟨fun h => (Text.oneLine_append.1 (h _ List.mem_cons_self)).2, fun hdescription => ?_⟩
  refine List.forall_mem_append.2 ⟨List.forall_mem_cons.2 ⟨?_, ?_⟩, ?_⟩
  · simp only [Text.oneLine_append, hfile, oneLine_toString, hdescription, true_and, and_true]
    decide
  · cases hs : d.sourceLine with
    | none => exact List.forall_mem_nil _
    | some source =>
      have hcaret : '\n' ∉ List.replicate (4 + column - 1) ' ' ++ ['^'] := by
        simp [List.mem_replicate]
      refine List.forall_mem_cons.2 ⟨Text.oneLine_append.2 ⟨by decide, hsource source hs⟩, ?_⟩
      refine List.forall_mem_singleton.2 ?_
      rwa [Text.OneLine, String.toList_ofList]
  · cases hh : d.hint with
    | none => exact List.forall_mem_nil _
    | some hint =>
      exact List.forall_mem_singleton.2
        (Text.oneLine_append.2 ⟨by decide, (hhint hint hh).2⟩)

end Rows

/-! ### Errors in reading a text -/

theorem oneLine_lineAround (before rest : List Char) :
    Text.OneLine (String.ofList (lineAround before rest)) := by
  rw [Text.OneLine, String.toList_ofList]
  intro h
  rcases List.mem_append.1 h with h | h
  · exact newline_notMem_lineFront before h
  · exact absurd (List.mem_takeWhile_imp h) (by decide)

theorem oneLine_description {rest : List Char} {f : LexicalFault} (hno : NoPiece rest)
    (hf : FaultOf rest f) : Text.OneLine (Cause.ofLexicalFault f).description := by
  cases hf with
  | unterminated _ =>
    show Text.OneLine "Unterminated string."
    decide +kernel
  | @invalid c cs _ =>
    show Text.OneLine ("Unexpected character '" ++ String.singleton c ++ "'.")
    have hc : Text.OneLine (String.singleton c) := by
      rw [Text.OneLine, String.toList_singleton, List.mem_singleton]
      exact hno.ne_newline.symm
    exact Text.oneLine_append.2 ⟨Text.oneLine_append.2 ⟨by decide +kernel, hc⟩, by decide⟩

/-- What stops the reading of a text is laid out. -/
theorem lexicalError_laidOut {text : List Char} {e : LexicalError} {file : String}
    (h : Token.scan text = .error e) (hfile : Text.OneLine file) :
    (e.diagnostic file).LaidOut file := by
  obtain ⟨ps, rest, hsplits, rfl | hno⟩ := exists_splits text
  · rw [scan_of_splits hsplits] at h
    cases h
  obtain ⟨f, hf, hscan⟩ := scan_of_noPiece hsplits hno
  rw [hscan] at h
  cases h
  refine (laidOut_iff rfl (Nat.succ_pos _) hfile ?_ ?_).2 (oneLine_description hno hf)
  · rintro _ ⟨⟩
    exact oneLine_lineAround _ _
  · cases hf with
    | unterminated _ =>
      rintro _ ⟨⟩
      decide +kernel
    | invalid _ => exact nofun

/-! ### Errors at tokens -/

theorem oneLine_of_sourceLine? {text source : String} {line : Int}
    (h : source ∈ sourceLine? (Text.lines text) line) : Text.OneLine source := by
  rw [sourceLine?] at h
  split_ifs at h
  · intro hmem
    have hend := Text.not_isLineEnd_of_mem_linesFrom (List.forall_mem_nil _)
      (List.mem_of_getElem? h) _ hmem
    exact absurd hend (by decide)
  · cases h

/-- The place of a token takes more than one row just if it is a string with newlines in it. -/
theorem oneLine_place_iff {m : Mismatch} (h : Parse.IsScanned m.token) :
    Text.OneLine m.place ↔ ¬ (m.token.kind = .string ∧ '\n' ∈ m.token.lexeme.toList) := by
  have hquoted : Text.OneLine ("at '" ++ m.token.lexeme ++ "'") ↔ '\n' ∉ m.token.lexeme.toList := by
    simp only [Text.oneLine_append, show Text.OneLine "at '" by decide, show Text.OneLine "'" by decide,
      true_and, and_true]
    rfl
  rw [Mismatch.place]
  split
  · rename_i hk
    exact iff_of_true (by decide) fun hs => by rw [hk] at hs; cases hs.1
  · rename_i hk
    exact iff_of_true (by decide) fun hs => by rw [hk] at hs; cases hs.1
  · rename_i hend hline
    rw [hquoted]
    rcases (h hend).space_cases (c := '\n') (.inl rfl) with ⟨hk, -⟩ | ⟨_, hk, -⟩ | ⟨-, hk, hno⟩
    · exact absurd hk hline
    · simp only [hk, true_and]
    · exact iff_of_true hno fun hs => hk hs.1

theorem mismatch_hint (m : Mismatch) (file : String) (lines : List String) :
    ∀ hint ∈ (m.diagnostic file lines).hint, hint ≠ "" ∧ Text.OneLine hint := by
  obtain ⟨rule, message, token⟩ := m
  cases rule with
  | terminator | assignment =>
    rintro _ ⟨⟩
    decide +kernel
  | _ => exact nofun

/-- An error at a token is laid out but for a string that goes over several lines. -/
theorem mismatch_laidOut_iff {m : Mismatch} {file : String} (text : String)
    (htoken : Parse.IsScanned m.token) (hplace : From [] m.token) (hmessage : Text.OneLine m.message)
    (hfile : Text.OneLine file) : (m.diagnostic file (Text.lines text)).LaidOut file ↔
      ¬ (m.token.kind = .string ∧ '\n' ∈ m.token.lexeme.toList) := by
  obtain ⟨before, hline, hcolumn⟩ := hplace
  have hlocation : (m.diagnostic file (Text.lines text)).location =
      some ⟨file, lineAfter ([] ++ before), columnAfter ([] ++ before)⟩ := by
    rw [Mismatch.diagnostic, Token.location, hline, hcolumn]
  have hdescription : (m.diagnostic file (Text.lines text)).cause.description =
      m.message ++ " (" ++ m.place ++ ")" := rfl
  rw [laidOut_iff hlocation (Nat.succ_pos _) hfile (fun _ => oneLine_of_sourceLine?)
    (mismatch_hint m _ _), ← oneLine_place_iff htoken, hdescription]
  simp only [Text.oneLine_append, hmessage, show Text.OneLine " (" by decide,
    show Text.OneLine ")" by decide, true_and, and_true]

namespace Parse

/-- **Errors are laid out in rows**, but for those at a string that goes over several lines. -/
theorem errors_are_laid_out (options : Options) (hook : Hook) (text : String)
    (hfile : Text.OneLine options.file) :
    (∀ e, ofText options hook text = .error (.lexical e) →
      (e.diagnostic options.file).LaidOut options.file) ∧
    ∀ o, ofText options hook text = .ok o → ∀ d ∈ o.result.collector.errors,
      ∃ m, d.cause = .mismatch m ∧ (d.LaidOut options.file ↔
        ¬ (m.token.kind = .string ∧ '\n' ∈ m.token.lexeme.toList)) := by
  refine ⟨fun e h => lexicalError_laidOut (scan_of_ofText_lexical h) hfile, fun o h d hd => ?_⟩
  obtain ⟨s, p, t, hscan, hdepth, hm, hp, herr⟩ := ofText_ok h
  rw [herr] at hd
  obtain ⟨m, hmem, rfl⟩ := List.mem_map.1 hd
  refine ⟨m, rfl, ?_⟩
  have htoken := token_mem_of_program (by omega) hm hp hmem
  have hwords : Worded t := by
    have hrun := program_words options.maxErrors s fun e he => by rw [hm] at he; cases he
    rwa [hp] at hrun
  exact mismatch_laidOut_iff text (isScanned_of_scan hscan _ htoken) (from_of_scan hscan _ htoken)
    (newline_notMem_message (hwords m hmem)) hfile

/-- A parenthesis that is not closed on its line: the header, the line and a caret behind it. -/
theorem a_missing_parenthesis_is_laid_out :
    let text := "print (1 + 2\n"
    let eol : Token := ⟨.endOfLine, "\n", .nil, 1, 13⟩
    let m : Mismatch := ⟨.token, "Expect ')' after expression.", eol⟩
    let d := m.diagnostic "lox" (Text.lines text)
    Text.OneLine "lox" ∧
      (∃ o, ofText { file := "lox" } {} text = .ok o ∧ d ∈ o.result.collector.errors) ∧
      d.text = "lox:1:13: error: Expect ')' after expression. (at end of line)\n" ++
        "    print (1 + 2\n" ++ "                ^" ∧
      d.LaidOut "lox" := by
  intro text eol m d
  have hscan : Token.scan text.toList = .ok
      [⟨.keyword .kPrint, "print", .nil, 1, 1⟩, ⟨.leftParen, "(", .nil, 1, 7⟩,
        ⟨.number, "1", .number (.ofDigits ['1'] []), 1, 8⟩, ⟨.plus, "+", .nil, 1, 10⟩,
        ⟨.number, "2", .number (.ofDigits ['2'] []), 1, 12⟩, eol,
        ⟨.endOfInput, "", .nil, 2, 1⟩] := by decide +kernel
  have hfile : Text.OneLine "lox" := by decide
  obtain ⟨o, ho, hd⟩ : ∃ o, ofText { file := "lox" } {} text = .ok o ∧
      d ∈ o.result.collector.errors := ⟨_, by rw [ofText, hscan]; rfl, List.mem_cons_self⟩
  obtain ⟨m', hm, hlaid⟩ := (errors_are_laid_out { file := "lox" } {} text hfile).2 o ho d hd
  obtain rfl : m = m' := Cause.mismatch.inj hm
  exact ⟨hfile, ⟨o, ho, hd⟩, by decide +kernel, hlaid.2 fun h => absurd h.1 (by decide)⟩

/-- The header of an error at a string with a newline in it takes two rows. -/
theorem a_string_breaks_the_header :
    let text := "x \"a\nb\""
    let t : Token := ⟨.string, "\"a\nb\"", .text "a\nb", 1, 3⟩
    let m : Mismatch := ⟨.terminator, "Expect ';' or EOL after expression.", t⟩
    let d := m.diagnostic "<input>" (Text.lines text)
    (∃ o, ofText {} {} text = .ok o ∧ d ∈ o.result.collector.errors) ∧
      Text.rows d.text.toList =
        ["<input>:1:3: error: Expect ';' or EOL after expression. (at '\"a".toList, "b\"')".toList,
          "    x \"a".toList, "      ^".toList,
          "hint: end the statement with ';' or a newline".toList] ∧
      ¬ d.LaidOut "<input>" := by
  intro text t m d
  have hscan : Token.scan text.toList = .ok
      [⟨.identifier, "x", .nil, 1, 1⟩, t, ⟨.endOfInput, "", .nil, 2, 3⟩] := by decide +kernel
  have hrows : Text.rows d.text.toList =
      ["<input>:1:3: error: Expect ';' or EOL after expression. (at '\"a".toList, "b\"')".toList,
        "    x \"a".toList, "      ^".toList,
        "hint: end the statement with ';' or a newline".toList] := by decide +kernel
  refine ⟨⟨_, by rw [ofText, hscan]; rfl, List.mem_cons_self⟩, hrows, ?_⟩
  -- the layout has a row less
  rintro ⟨line, column, -, hlaid⟩
  have hline : d.sourceLine = some "x \"a" := by decide +kernel
  rw [hrows, Diagnostic.layout, hline] at hlaid
  have hlength : 5 = 4 := congrArg List.length hlaid
  exact absurd hlength (by decide)

end Parse

end LoxFront
