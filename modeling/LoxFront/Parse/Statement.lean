import LoxFront.Parse.Expression

/-!
# Parsing statements

A statement is the declaration of a variable, a print statement, a block, or an expression, and it
ends with a terminator.  A statement with an error in it is dropped, and reading goes on behind it
(`Parse.recovering`); a dropped statement of a block leaves nothing behind.
-/

namespace LoxFront.Parse

/-! ### Simple statements -/

/-- A statement that consists of an expression and a terminator. -/
def endedExpression (fuel : Nat) (message : String) : Action Expr := do
  let e ← expressionWithin fuel
  requireTerminator message
  return e

/-- The initial value behind an equals sign, if there is one. -/
def initialValue (fuel : Nat) : Action (Option Expr) := do
  match ← take? .equal with
  | none => return none
  | some _ => return some (← expressionWithin fuel)

/-- The declaration of a variable, behind its keyword. -/
def declarationRest (fuel : Nat) : Action Stmt := do
  let name ← expect .identifier "Expect variable name."
  let initial ← initialValue fuel
  requireTerminator "Expect ';' or EOL after variable declaration."
  return .declare name initial

/-! ### Blocks -/

/-- Does a step inside one more block, and leaves the block in any case. -/
def insideBlock {α : Type} (step : Action α) : Action α := fun s =>
  match step { s with depth := s.depth + 1 } with
  | .ok a s => .ok a { s with depth := s.depth - 1 }
  | .error e s => .error e { s with depth := s.depth - 1 }

/-- The statements of a block up to a closing brace or the end of the input.  Each round takes a
token, so the fuel need not exceed the tokens left. -/
def blockItems (statement : Action (Option Stmt)) : Nat → Action (List Stmt)
  | 0 => throw .endless
  | fuel + 1 => do
    let c := (← get).cursor
    if c.sees .rightBrace || c.atEnd then return []
    else
      let item ← statement
      let rest ← blockItems statement fuel
      return item.toList ++ rest

/-- The end of a block behind its statements: the closing brace, and the terminator behind it. -/
def blockEnd (items : List Stmt) : Action Stmt := do
  let _ ← expect .rightBrace "Expect '\x7d' after block."
  requireTerminator "Expect statement terminator after block."
  return .block items

/-- What is inside of a block, up to the terminator behind its closing brace, given the parser for
its statements. -/
def blockBody (fuel : Nat) (statement : Action (Option Stmt)) : Action Stmt := do
  skipLines
  let items ← blockItems statement fuel
  blockEnd items

/-- A block behind its opening brace.  The terminator behind the closing brace belongs to the
block. -/
def blockRest (fuel : Nat) (statement : Action (Option Stmt)) : Action Stmt :=
  insideBlock (blockBody fuel statement)

/-! ### All statements -/

/-- Drops a statement with an error in it, and goes on behind it. -/
def recovering (step : Action Stmt) : Action (Option Stmt) := fun s =>
  match step s with
  | .ok statement s => .ok (some statement) s
  | .error (.mismatch _) s => (resume *> pure none) s
  | .error e s => .error e s

/-- A statement, given the parser for the statements of a block. -/
def statementOver (fuel : Nat) (inner : Action (Option Stmt)) : Action Stmt := do
  match ← take? (.keyword .kVar) with
  | some _ => declarationRest fuel
  | none =>
    match ← take? (.keyword .kPrint) with
    | some _ => return .print (← endedExpression fuel "Expect ';' or EOL after value.")
    | none =>
      match ← take? .leftBrace with
      | some _ => blockRest fuel inner
      | none => return .expression (← endedExpression fuel "Expect ';' or EOL after expression.")

/-- A statement, or `none` if it was dropped.  The fuel need not exceed the tokens left. -/
def statementWithin : Nat → Action (Option Stmt)
  | 0 => throw .endless
  | fuel + 1 => recovering (statementOver (fuel + 1) (statementWithin fuel))

/-- A statement with the fuel that it needs, or `none` if it was dropped. -/
def statement : Action (Option Stmt) := do statementWithin (← tokensLeft)

end LoxFront.Parse
