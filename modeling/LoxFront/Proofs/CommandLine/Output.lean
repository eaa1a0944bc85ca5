import LoxFront.Proofs.CommandLine.Status
import LoxFront.Proofs.Tree.Rows

/-!
# The rows of the output

The listing of a program is meant to have one row for each statement and each gap, and the command, when
it is asked for prefix forms, to write one row for each statement.  What is written has these rows just
if no newline is in the literals that have been kept; each newline there takes one row more
(`renderings_take_rows`, `a_string_takes_two_rows`).

Terminal sequences are removed from the output, but no newline is part of one (`count_plain`).
-/

namespace LoxFront

/-! ### Terminal sequences -/

namespace Text

theorem plainFrom_eq_drop (n : Nat) (cs : List Char) : plainFrom n cs = plainFrom 0 (cs.drop n) := by
  induction n generalizing cs with
  | zero => rfl
  | succ n ih =>
    cases cs with
    | nil => rfl
    | cons c cs => rw [plainFrom, ih, List.drop_succ_cons]

/-- There is no newline in a terminal sequence. -/
theorem count_drop_of_sequence {cs : List Char} {n : Nat} (h : sequenceLength? cs = some n) :
    (cs.drop n).count '\n' = cs.count '\n' := by
  unfold sequenceLength? at h
  split at h
  · rename_i rest
    split at h
    · rename_i c tail htail
      split_ifs at h with hc
      cases h
      have hrest : rest = rest.takeWhile isParameter ++ c :: tail := by
        rw [← htail, List.takeWhile_append_dropWhile]
      have hparameters : (rest.takeWhile isParameter).count '\n' = 0 :=
        List.count_eq_zero.2 fun hmem => absurd (List.mem_takeWhile_imp hmem) (by decide)
      have hletter : c ≠ '\n' := by
        rintro rfl
        exact absurd hc (by decide)
      generalize rest.takeWhile isParameter = parameters at hrest hparameters
      subst hrest
      have hdrop : ('[' :: (parameters ++ c :: tail)).drop (parameters.length + 2) = tail := by
        simp [List.drop_append]
      rw [hdrop, List.count_cons_of_ne (by decide), List.count_append, hparameters,
        List.count_cons_of_ne hletter, Nat.zero_add]
    · cases h
  · cases h

/-- **Newlines are kept** where terminal sequences are removed. -/
theorem count_plainFrom (cs : List Char) : (plainFrom 0 cs).count '\n' = cs.count '\n' := by
  induction hn : cs.length using Nat.strongRecOn generalizing cs with
  | _ n ih =>
    cases cs with
    | nil => rfl
    | cons c cs =>
      rw [plainFrom]
      split
      · rename_i k hk
        split_ifs at hk with hc
        have hlen : (cs.drop k).length < n := by
          rw [List.length_cons] at hn
          rw [List.length_drop]
          omega
        rw [plainFrom_eq_drop, ih _ hlen _ rfl, count_drop_of_sequence hk, hc,
          List.count_cons_of_ne (by decide)]
      · rw [List.length_cons] at hn
        rw [List.count_cons, List.count_cons, ih _ (by omega) cs rfl]

theorem count_plain (s : String) : (plain s).toList.count '\n' = s.toList.count '\n' := by
  rw [plain, String.toList_ofList, count_plainFrom]

end Text

namespace CommandLine

/-- A line that is written has one newline more than its text. -/
theorem count_line (s : String) : (line s).toList.count '\n' = s.toList.count '\n' + 1 := by
  rw [line, String.toList_append, List.count_append, Text.count_plain]
  rfl

theorem count_join_lines (texts : List String) :
    (String.join (texts.map line)).toList.count '\n' =
      texts.length + (texts.map fun s => s.toList.count '\n').sum := by
  rw [String.toList_join]
  induction texts with
  | nil => rfl
  | cons s texts ih =>
    rw [List.map_cons, List.flatMap_cons, List.count_append, count_line, ih, List.length_cons,
      List.map_cons, List.sum_cons]
    omega

/-- The prefix forms of a program as output: a line for each statement, and one more for each newline in
a literal. -/
theorem count_rendering_forms {p : Program} (h : Program.From Parse.IsScanned p) :
    (rendering true p).toList.count '\n' = (p.filterMap id).length + p.newlines := by
  have hcount : (p.filterMap id).map ((fun s => s.toList.count '\n') ∘ Stmt.form) =
      (p.filterMap id).map Stmt.newlines := List.map_congr_left fun s hs =>
    Stmt.count_form (h s (Program.some_mem_of_mem_filterMap hs))
  rw [rendering, if_pos rfl, count_join_lines, Program.forms, List.length_map, List.map_map, hcount,
    Program.newlines]

/-- A text is what a job finds in its input. -/
def Job.Reads (around : Surroundings) (job : Job) (text : String) : Prop :=
  ∃ bytes chars, inputBytes around job.input = .ok bytes ∧ Text.Utf8.decode bytes = .ok chars ∧
    text = String.ofList (Text.newlines chars)

/-- **How many rows the renderings take.**  A text that is made of tokens is parsed, and printed in both
ways.  In the listing there are a heading, and a row for each gap and for each statement, those in blocks
included; a prefix form is one row, and the command writes a row for each of them when it is asked to.
Each newline in a literal of the statements takes one row more. -/
theorem renderings_take_rows {text : String} {tokens : List Token}
    (hscan : Token.scan text.toList = .ok tokens) (options : Options) :
    ∃ o, Parse.ofText options {} text = .ok o ∧
      let p := o.result.statements
      (∃ listing, (∀ printer, ∃ after,
          Printer.print (Program.toNodes p) printer = .ok listing after) ∧
        (Text.rows listing.toList).length =
          1 + Program.gaps p + Program.nodes p + Program.newlines p) ∧
      (∃ forms, Node.forms (Program.toNodes p) = .ok forms ∧
        List.Forall₂ (fun s form => (Text.rows form.toList).length = 1 + s.newlines)
          o.result.valid forms) ∧
      ∀ (around : Surroundings) (args : List String) (job : Job),
        Request.ofArguments args = .ok (.job job) → job.forms = true → job.Reads around text →
          job.options around.environment = options → ∃ r, run around args = .ok r ∧
            r.output.toList.count '\n' = o.result.valid.length + Program.newlines p := by
  obtain ⟨o, ho, -⟩ := Parse.exists_outcome hscan options
  have hfrom := Parse.from_of_ofText ho
  refine ⟨o, ho, ⟨_, fun printer => ⟨_, Printer.print_toNodes _ printer⟩,
    Program.length_rows_listingText hfrom⟩, ⟨_, Program.forms_toNodes _,
    Program.length_rows_forms hfrom⟩, ?_⟩
  rintro around args job hargs hforms ⟨bytes, chars, hbytes, hchars, rfl⟩ rfl
  refine ⟨_, run_job hargs hbytes hchars, ?_⟩
  rw [textResponse_of_ok ho, Response.behind, parsedResponse, hforms]
  exact count_rendering_forms hfrom

/-- A declaration, a block with a statement in it, and a gap: five rows with the heading, and two in
prefix form. -/
theorem a_block_and_a_gap_take_five_rows :
    let text := "var a = 1\n\x7b print a \x7d\n1 +;"
    let around : Surroundings :=
      { lookup := fun _ => none, standardInput := text.toUTF8.toList, environment := fun _ => none }
    let job : Job := ⟨"-", true, false, none⟩
    let options : Options := { file := "<stdin>" }
    Request.ofArguments ["--sexpr", "-"] = .ok (.job job) ∧ job.Reads around text ∧
      job.options around.environment = options ∧
      (∃ o listing, Parse.ofText options {} text = .ok o ∧
        (∀ printer, ∃ after,
          Printer.print (Program.toNodes o.result.statements) printer = .ok listing after) ∧
        (Text.rows listing.toList).length = 5) ∧
      ∃ r, run around ["--sexpr", "-"] = .ok r ∧ r.output.toList.count '\n' = 2 := by
  intro text around job options
  obtain ⟨tokens, hscan⟩ : ∃ tokens, Token.scan text.toList = .ok tokens := by
    have hsome : (Token.scan text.toList).toOption.isSome = true := by decide +kernel
    cases h : Token.scan text.toList with
    | ok tokens => exact ⟨tokens, rfl⟩
    | error e =>
      rw [h] at hsome
      cases hsome
  have hargs : Request.ofArguments ["--sexpr", "-"] = .ok (.job job) := by decide +kernel
  have hreads : job.Reads around text :=
    ⟨around.standardInput, text.toList, rfl, by decide +kernel, by decide +kernel⟩
  have hoptions : job.options around.environment = options := by decide +kernel
  obtain ⟨o, ho, ⟨listing, hprint, hrows⟩, -, houtput⟩ := renderings_take_rows hscan options
  have hcounts : (Parse.ofText options {} text).toOption.map (fun o =>
      (Program.gaps o.result.statements, Program.nodes o.result.statements,
        Program.newlines o.result.statements, o.result.valid.length)) = some (1, 3, 0, 2) := by
    decide +kernel
  rw [ho] at hcounts
  simp only [Except.toOption, Option.map_some, Option.some.injEq, Prod.mk.injEq] at hcounts
  obtain ⟨hgaps, hnodes, hnewlines, hvalid⟩ := hcounts
  rw [hgaps, hnodes, hnewlines] at hrows
  obtain ⟨r, hr, hcount⟩ := houtput around ["--sexpr", "-"] job hargs rfl hreads hoptions
  rw [hvalid, hnewlines] at hcount
  exact ⟨hargs, hreads, hoptions, ⟨o, listing, ho, hprint, hrows⟩, r, hr, hcount⟩

/-- A single statement with a newline in its string takes two rows below the heading, and two in prefix
form. -/
theorem a_string_takes_two_rows :
    let text := "print \"a\nb\""
    ∃ o, Parse.ofText {} {} text = .ok o ∧
      Program.gaps o.result.statements = 0 ∧ Program.nodes o.result.statements = 1 ∧
      (∀ printer, ∃ after, Printer.print (Program.toNodes o.result.statements) printer =
        .ok "Program\n  Print \"a\nb\"" after) ∧
      (Text.rows "Program\n  Print \"a\nb\"".toList).length = 3 ∧
      Node.forms (Program.toNodes o.result.statements) = .ok ["(print \"a\nb\")"] ∧
      rendering true o.result.statements = "(print \"a\nb\")\n" := by
  intro text
  obtain ⟨o, ho, hp⟩ := Parse.exists_ofText {} {} text
    (p := [some (.print (.literal (.text "a\nb")))]) (by decide +kernel)
  refine ⟨o, ho, ?_⟩
  have hlisting : Program.listingText [some (.print (.literal (.text "a\nb")))] =
      "Program\n  Print \"a\nb\"" := by decide +kernel
  have hforms : Program.forms [some (.print (.literal (.text "a\nb")))] =
      ["(print \"a\nb\")"] := by decide +kernel
  rw [hp]
  refine ⟨rfl, rfl, fun printer => ?_, by decide +kernel, ?_, by decide +kernel⟩
  · rw [← hlisting]
    exact ⟨_, Printer.print_toNodes _ printer⟩
  · rw [Program.forms_toNodes, hforms]

end CommandLine

end LoxFront
