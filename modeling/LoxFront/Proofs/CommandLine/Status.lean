import LoxFront.CommandLine.Run
import LoxFront.Proofs.Node.Printing
import LoxFront.Proofs.Parse.Budget

/-!
# The exit status

The status of the command tells whether the program has errors, whatever the options and the
variables of the environment are.  A text that is made of tokens is always parsed, and a budget does not
hide its first error (`Parse.exists_outcome`), so that there are errors in what the command finds just
if there are errors without any limit (`Parse.Errorless`).

The trees of a program are never refused by a printer (`Response.Shows`).  So a job with an input that
can be read comes to an end with the first or the second status, and never with the one of an
internal error (`run_tells_whether_there_are_errors`).
-/

namespace LoxFront

/-! ### Whether there are errors -/

theorem ParseResult.hasErrors_eq_false_iff {σ : Type} {r : ParseResult σ} :
    r.hasErrors = false ↔ r.collector.errors = [] := by
  rw [ParseResult.hasErrors, Collector.hasErrors, Bool.not_eq_false', List.isEmpty_iff]

namespace Parse

/-- A text is made of tokens, and parsing it with no limit finds no errors. -/
def Errorless (text : String) : Prop :=
  ∃ o, ofText { maxErrors := 0 } {} text = .ok o ∧ o.result.hasErrors = false

variable {text : String} {tokens : List Token}

theorem not_errorless_of_scan {e : LexicalError} (h : Token.scan text.toList = .error e) :
    ¬ Errorless text := by
  rintro ⟨o, ho, -⟩
  rw [ofText, h] at ho
  cases ho

/-- **No option changes whether there are errors.**  A text that is made of tokens is parsed with any
options, and has errors just if it has errors without a limit. -/
theorem exists_outcome (hscan : Token.scan text.toList = .ok tokens) (options : Options) :
    ∃ o, ofText options {} text = .ok o ∧ (o.result.hasErrors = false ↔ Errorless text) := by
  obtain ⟨ts, rfl, -⟩ := Lexical.tokens_of_scan hscan
  obtain ⟨s, hs⟩ := exists_start ts (e := Lexical.endToken text.toList) rfl {}
  obtain ⟨-, hd, -, hh⟩ := of_start hs
  have hrun := fun budget => program_ok budget (by rw [hh]) (Int.le_of_eq hd)
  obtain ⟨q, u, hq, -⟩ := hrun 0
  -- with any budget there are errors just if there are some in the state `u`
  have hbudget : ∀ options : Options, ∃ o, ofText options {} text = .ok o ∧
      (o.result.hasErrors = false ↔ u.mismatches = []) := by
    intro options
    obtain ⟨p, t, hp, -⟩ := hrun options.maxErrors
    obtain ⟨o, ho, herrors⟩ := ofText_of_program hscan hs hp
    refine ⟨o, ho, ?_⟩
    rw [ParseResult.hasErrors_eq_false_iff, herrors, List.map_eq_nil_iff]
    exact mismatches_eq_nil_iff hs hq hp
  obtain ⟨o, ho, hiff⟩ := hbudget options
  obtain ⟨o', ho', hiff'⟩ := hbudget { maxErrors := 0 }
  refine ⟨o, ho, hiff.trans ⟨fun hu => ⟨o', ho', hiff'.2 hu⟩, ?_⟩⟩
  rintro ⟨o'', ho'', hnone⟩
  obtain rfl : o' = o'' := Except.ok.inj (ho'.symm.trans ho'')
  exact hiff'.1 hnone

end Parse

namespace CommandLine

/-! ### What a job is done with -/

namespace Job

/-- The options that a job is done with. -/
def options (job : Job) (environment : String → Option String) : Options :=
  { (Options.ofVariables environment).1 with
    file := inputName job.input
    maxErrors := job.maxErrors.getD (Options.ofVariables environment).1.maxErrors }

/-- The lines of the log in front of the work on a text of some length. -/
def preface (job : Job) (environment : String → Option String) (length : Nat) : String :=
  logText job.verbose (Options.ofVariables environment).2 ++
    logText job.verbose [readRecord (inputName job.input) length]

end Job

section Jobs

variable {around : Surroundings} {args : List String} {job : Job} {bytes : List UInt8}
  {chars : List Char}

/-- A job with an input that can be read is done with its text. -/
theorem run_job (hargs : Request.ofArguments args = .ok (.job job))
    (hbytes : inputBytes around job.input = .ok bytes)
    (hchars : Text.Utf8.decode bytes = .ok chars) :
    run around args = .ok
      ((textResponse job (job.options around.environment) (String.ofList (Text.newlines chars))).behind
        (job.preface around.environment (Text.newlines chars).length)) := by
  have hdone : run around args = .ok (jobResponse job around.environment bytes) := by
    simp only [run, hargs, hbytes, bind, Except.bind, pure, Except.pure]
  rw [hdone, jobResponse]
  simp only [hchars, Response.behind, Job.preface, String.append_assoc]
  rfl

end Jobs

/-! ### Responses -/

/-- A response shows an outcome.  The output is the rendering asked for, which the printers give of the
statements, whatever has been printed before.  Beside it, behind the log, there is the report on the
errors, if there are any. -/
structure Response.Shows (r : Response) (job : Job) (log : String) (o : Parse.Outcome) : Prop where
  forms : job.forms = true → ∃ lines, Node.forms (Program.toNodes o.result.statements) = .ok lines ∧
    r.output = String.join (lines.map line)
  listing : job.forms = false → ∃ text, r.output = line text ∧
    ∀ p, ∃ q, Printer.print (Program.toNodes o.result.statements) p = .ok text q
  report : r.errors = log ++ logText job.verbose o.log ++
    if o.result.hasErrors then line o.result.collector.report else ""

variable {job : Job} {o : Parse.Outcome}

/-- The response to a program that was parsed shows the outcome. -/
theorem parsedResponse_shows (job : Job) (o : Parse.Outcome) (log : String) :
    ((parsedResponse job o).behind log).Shows job log o where
  forms hf := by
    refine ⟨_, Program.forms_toNodes _, ?_⟩
    rw [Response.behind, parsedResponse, rendering, if_pos hf]
  listing hf := by
    refine ⟨_, ?_, fun p => ⟨_, Printer.print_toNodes _ p⟩⟩
    rw [Response.behind, parsedResponse, rendering, hf]
    rfl
  report := by
    rw [Response.behind, parsedResponse, String.append_assoc]
    cases h : o.result.hasErrors <;>
      rw [ParseResult.hasErrors] at h <;>
      simp [ParseResult.failure?, Collector.failure?, h]

theorem parsedResponse_code (job : Job) (o : Parse.Outcome) :
    (parsedResponse job o).status.code = if o.result.hasErrors then 1 else 0 := by
  rw [parsedResponse]
  cases h : o.result.hasErrors <;>
    rw [ParseResult.hasErrors] at h <;>
    simp [ParseResult.failure?, Collector.failure?, h, Status.code]

theorem textResponse_of_ok {options : Options} {text : String}
    (h : Parse.ofText options {} text = .ok o) :
    textResponse job options text = parsedResponse job o := by
  rw [textResponse, h]

/-- Nothing but its place and cause is known of a text that is not made of tokens. -/
theorem textResponse_of_scan {text : String} {e : LexicalError}
    (h : Token.scan text.toList = .error e) (options : Options) :
    textResponse job options text =
      ⟨.syntaxError, "", line (e.diagnostic options.file).text⟩ := by
  rw [textResponse, Parse.ofText, h]
  rfl

/-- **The exit status tells whether the program has errors.**  A job with an input that can be read is
done.  The status is `0` just if the text, with all its line ends written as newlines, is made of
tokens and has no errors when it is parsed with no limit; otherwise it is `1`.  If the text is not made
of tokens, there is no output.  In all other cases the statements that were read are the output, behind
errors too, and the errors are reported beside it. -/
theorem run_tells_whether_there_are_errors {around : Surroundings} {args : List String} {job : Job}
    {bytes : List UInt8} {chars : List Char} (hargs : Request.ofArguments args = .ok (.job job))
    (hbytes : inputBytes around job.input = .ok bytes)
    (hchars : Text.Utf8.decode bytes = .ok chars) :
    let text := String.ofList (Text.newlines chars)
    let options := job.options around.environment
    let log := job.preface around.environment (Text.newlines chars).length
    ∃ r, run around args = .ok r ∧
      (r.status.code = 0 ∨ r.status.code = 1) ∧
      (r.status.code = 0 ↔ Parse.Errorless text) ∧
      (∀ e, Token.scan text.toList = .error e →
        r.output = "" ∧ r.errors = log ++ line (e.diagnostic options.file).text) ∧
      ∀ tokens, Token.scan text.toList = .ok tokens →
        ∃ o, Parse.ofText options {} text = .ok o ∧ r.Shows job log o := by
  intro text options log
  have hrun : run around args = .ok ((textResponse job options text).behind log) :=
    run_job hargs hbytes hchars
  cases hscan : Token.scan text.toList with
  | error e =>
    rw [textResponse_of_scan hscan] at hrun
    refine ⟨_, hrun, .inr rfl, iff_of_false Nat.one_ne_zero (Parse.not_errorless_of_scan hscan),
      fun e' h => ?_, nofun⟩
    obtain rfl : e = e' := Except.error.inj h
    exact ⟨rfl, rfl⟩
  | ok tokens =>
    obtain ⟨o, ho, herrors⟩ := Parse.exists_outcome hscan options
    rw [textResponse_of_ok ho] at hrun
    have hcode : ((parsedResponse job o).behind log).status.code =
        if o.result.hasErrors then 1 else 0 := parsedResponse_code job o
    refine ⟨_, hrun, ?_, ?_, nofun, fun _ _ => ⟨o, ho, parsedResponse_shows job o log⟩⟩
    · rw [hcode]
      cases o.result.hasErrors
      exacts [.inl rfl, .inr rfl]
    · rw [hcode, ← herrors]
      cases o.result.hasErrors <;> decide

/-- A budget of one error on the standard input: what is in front of the error is still shown, and the
gap that it leaves is not, as the environment has it. -/
theorem one_error_on_the_standard_input :
    let around : Surroundings :=
      { lookup := fun _ => none
        standardInput := "1\x0d\nprint ;\n2".toUTF8.toList
        environment := fun name => if name = "LOXPARSE_KEEP_PLACEHOLDERS" then some "no" else none }
    let job : Job := ⟨"-", false, false, some 1⟩
    ∃ r, run around ["--max-errors", "1", "-"] = .ok r ∧ r.status.code = 1 ∧
      r.output = "Program\n  Expr 1\n" ∧ ¬ Parse.Errorless "1\nprint ;\n2" ∧
      ∃ o, Parse.ofText ⟨"<stdin>", 1, false⟩ {} "1\nprint ;\n2" = .ok o ∧ r.Shows job "" o := by
  intro around job
  have hargs : Request.ofArguments ["--max-errors", "1", "-"] = .ok (.job job) := by decide +kernel
  have hchars : Text.Utf8.decode around.standardInput = .ok "1\x0d\nprint ;\n2".toList := by
    decide +kernel
  obtain ⟨r, hr, -, hcode, hlexical, hparsed⟩ :=
    run_tells_whether_there_are_errors hargs rfl hchars
  have htext : String.ofList (Text.newlines "1\x0d\nprint ;\n2".toList) = "1\nprint ;\n2" := by
    decide +kernel
  have hoptions : job.options around.environment = ⟨"<stdin>", 1, false⟩ := by decide +kernel
  have hlog : job.preface around.environment
      (Text.newlines "1\x0d\nprint ;\n2".toList).length = "" := by decide +kernel
  rw [htext] at hcode hlexical hparsed
  rw [hoptions, hlog] at hparsed
  have hrun : (run around ["--max-errors", "1", "-"]).toOption.map
      (fun r => (r.status.code, r.output)) = some (1, "Program\n  Expr 1\n") := by decide +kernel
  rw [hr] at hrun
  obtain ⟨hone, houtput⟩ := Prod.mk.inj (Option.some.inj hrun)
  refine ⟨r, hr, hone, houtput, fun h => ?_, ?_⟩
  · rw [hcode.2 h] at hone
    exact absurd hone (by decide)
  · cases hscan : Token.scan "1\nprint ;\n2".toList with
    | error e =>
      rw [(hlexical e hscan).1] at houtput
      exact absurd houtput (by decide)
    | ok tokens => exact hparsed tokens hscan

end CommandLine

end LoxFront
