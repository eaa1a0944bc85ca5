import LoxFront.Proofs.Parse.Invariant

/-!
# Blocks are closed again

A block raises the depth and restores it however it is left: behind its terminator, by an error, or
because the hook interrupts the work, at whatever depth that happens.  So every step ends at the depth
at which it began (`Restores`), and a program that is parsed from the start ends outside of all blocks,
even if the budget stops it (`depth_is_restored`).
-/

namespace LoxFront.Parse

variable {α : Type}

/-- A step ends at the depth at which it began, with a value or without one. -/
def Restores (x : Action α) : Prop := ∀ s, (final (x s)).depth = s.depth

theorem Keeps.restores {x : Action α} (h : Keeps Follows Leaves x) : Restores x :=
  fun s => (h.final s).depth

theorem passTerminator_follows : Keeps Follows Leaves passTerminator := by
  intro s
  rw [passTerminator_run]
  cases hc : s.cursor.passTerminator? s.depth with
  | none => exact .refl s
  | some c => exact kept_follows.moveTo s (.passTerminator hc)

theorem resume_follows : Keeps Follows Leaves resume := fun s => .resumed s

/-- **Every step restores the depth**, from whatever state and whichever call of the hook interrupts
it: statements, expressions, terminators, recovery, a certain token, any number of rounds of a program,
and whole programs.  A program from the start ends outside of all blocks. -/
theorem depth_is_restored :
    Restores statement ∧ Restores expression ∧ Restores passTerminator ∧
      (∀ message, Restores (requireTerminator message)) ∧ Restores resume ∧
      (∀ kind message, Restores (expect kind message)) ∧
      (∀ budget rounds, Restores (entries budget rounds)) ∧ (∀ budget, Restores (program budget)) ∧
      ∀ (budget : Nat) (tokens : List Token) (hook : Hook) (s : State),
        start? tokens hook = some s → (final (program budget s)).depth = 0 := by
  have hprogram : ∀ budget, Restores (program budget) := fun budget =>
    (keptThroughout_follows.program budget).restores
  refine ⟨kept_follows.statement.restores, ?_, passTerminator_follows.restores, fun message => ?_,
    resume_follows.restores, fun kind message => ?_, fun budget rounds => ?_, hprogram,
    fun budget tokens hook s hs => ?_⟩
  · exact fun s => (kept_follows.expressionWithin _).restores s
  · exact (kept_follows.requireTerminator message).restores
  · exact (kept_follows.expect kind message).restores
  · exact (keptThroughout_follows.entries budget rounds).restores
  · obtain ⟨-, -, hd, -⟩ := start?_eq_some.1 hs
    exact (hprogram budget s).trans hd

/-- The hook interrupts the work inside of two blocks. -/
theorem restored_from_two_blocks :
    let outer : Token := ⟨.leftBrace, "\x7b", .nil, 1, 1⟩
    let inner : Token := ⟨.leftBrace, "\x7b", .nil, 1, 2⟩
    let paren : Token := ⟨.rightParen, ")", .nil, 1, 3⟩
    let stop : Token := ⟨.endOfInput, "", .nil, 1, 4⟩
    ∃ s t, start? [outer, inner, paren, stop] ⟨[1]⟩ = some s ∧
      program 0 s = .error .interrupted t ∧ t.cursor.current = paren ∧ t.depth = 0 := by
  intro outer inner paren stop
  let s : State := { cursor := ⟨[], outer, [inner, paren, stop], rfl⟩, hook := ⟨[1]⟩ }
  have hs : start? [outer, inner, paren, stop] ⟨[1]⟩ = some s := rfl
  obtain ⟨-, -, -, -, -, -, -, -, hprogram⟩ := depth_is_restored
  exact ⟨s, final (program 0 s), hs, rfl, rfl, hprogram 0 _ _ s hs⟩

end LoxFront.Parse
