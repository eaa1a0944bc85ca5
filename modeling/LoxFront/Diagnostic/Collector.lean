import LoxFront.Diagnostic.Basic

/-!
# Collected diagnostics

A `Collector` gathers the errors and warnings about a program, so that they are reported together.
A budget may limit the errors: when it is spent, the program is not read any further.
-/

namespace LoxFront

/-- Whether so many errors use up a budget.  A budget of zero has no end. -/
def budgetSpent (budget errors : Nat) : Bool := 0 < budget && budget ≤ errors

/-- Errors and warnings in the order in which they came. -/
structure Collector where
  errors : List Diagnostic := []
  warnings : List String := []
  budget : Nat := 100
deriving DecidableEq, Repr

/-- Many errors at once: the report on them, and the errors. -/
structure Failure where
  report : String
  errors : List Diagnostic
deriving DecidableEq, Repr

namespace Collector

/-- A collector with a budget of so many errors; one that is not positive has no end. -/
def withBudget (budget : Int) : Collector := { budget := budget.toNat }

/-- Adds an error. -/
def add (c : Collector) (d : Diagnostic) : Collector := { c with errors := c.errors ++ [d] }

/-- The text of a warning, behind its location if that is known. -/
def warningText (location : Option Location) (message : String) : String :=
  match location with
  | some l => l.text ++ ": warning: " ++ message
  | none => "warning: " ++ message

/-- Adds a warning. -/
def addWarning (c : Collector) (message : String) (location : Option Location) : Collector :=
  { c with warnings := c.warnings ++ [warningText location message] }

/-- Whether there are errors. -/
def hasErrors (c : Collector) : Bool := !c.errors.isEmpty

/-- Whether the budget is spent. -/
def shouldStop (c : Collector) : Bool := budgetSpent c.budget c.errors.length

/-- Forgets all errors and warnings. -/
def clear (c : Collector) : Collector := { c with errors := [], warnings := [] }

/-- A number of things. -/
def counted (n : Nat) (word : String) : String :=
  toString n ++ " " ++ word ++ (if n = 1 then "" else "s")

/-- The report: each error with an empty line behind it, the warnings, and the totals behind an
empty line. -/
def report (c : Collector) : String :=
  let totals :=
    "\n" ++ counted c.errors.length "error" ++ ", " ++ counted c.warnings.length "warning"
  "\n".intercalate (c.errors.flatMap (fun d => [d.text, ""]) ++ c.warnings ++ [totals])

/-- The failure that the errors make up, if there are any. -/
def failure? (c : Collector) : Option Failure :=
  if c.hasErrors then some ⟨c.report, c.errors⟩ else none

end Collector

end LoxFront
