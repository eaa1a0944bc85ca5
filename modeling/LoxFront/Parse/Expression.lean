import LoxFront.Parse.State
import LoxFront.Tree.Basic

/-!
# Parsing expressions

Expressions are parsed by levels of precedence, each level built from the next higher one:
assignment, equality, comparison, sums, products, prefix operators, and primary expressions, which
are literals, variables and expressions in parentheses.  A chain of binary operators of one level
associates to the left, assignments and prefix operators to the right.

Each level takes the parser of the next one as an argument, so it is one small function; the
recursion through parentheses is tied in `Parse.expressionWithin`.  All loops of one expression share
one fuel.
-/

namespace LoxFront.Parse

/-! ### Levels -/

/-- The levels of binary operators, the weakest first. -/
inductive BinaryLevel where
  | equality
  | comparison
  | sum
  | product
deriving DecidableEq, Repr

/-- Whether a token of a kind is a binary operator of a level. -/
def BinaryLevel.hasOperator : BinaryLevel → Kind → Bool
  | equality, .bangEqual | equality, .equalEqual => true
  | comparison, .greater | comparison, .greaterEqual => true
  | comparison, .less | comparison, .lessEqual => true
  | sum, .minus | sum, .plus => true
  | product, .slash | product, .star => true
  | _, _ => false

/-- Whether a token of a kind is a prefix operator. -/
def isPrefixOperator : Kind → Bool
  | .bang | .minus => true
  | _ => false

/-! ### One level -/

/-- Goes on with a chain of operators of a level behind its left part.  Each round takes an operator,
so the fuel need not exceed the tokens left. -/
def chain (level : BinaryLevel) (operand : Action Expr) : Nat → Expr → Action Expr
  | 0, _ => throw .endless
  | fuel + 1, left => do
    match ← takeIf level.hasOperator with
    | none => return left
    | some operator =>
      let right ← operand
      chain level operand fuel (.binary left operator right)

/-- Operands joined by operators of a level. -/
def binary (level : BinaryLevel) (fuel : Nat) (operand : Action Expr) : Action Expr := do
  let left ← operand
  chain level operand fuel left

/-- Prefix operators in front of an operand.  Each round takes an operator. -/
def prefixed (operand : Action Expr) : Nat → Action Expr
  | 0 => throw .endless
  | fuel + 1 => do
    match ← takeIf isPrefixOperator with
    | none => operand
    | some operator =>
      let right ← prefixed operand fuel
      return .unary operator right

/-- The meaning of an equals sign between two expressions.  Only a variable can be assigned to; if
something else stands on the left, that is recorded, and the left side is kept. -/
def assignTo (target : Expr) (equals : Token) (value : Expr) : Action Expr := do
  match target with
  | .reference name => return .assign name value
  | _ =>
    report (.invalidAssignment equals)
    return target

/-- Goes on behind what may be the left side of an assignment. -/
def assignmentRest (target : Expr) (value : Action Expr) : Action Expr := do
  match ← take? .equal with
  | none => return target
  | some equals =>
    let value ← value
    assignTo target equals value

/-- Operands joined by equals signs.  Each round takes one. -/
def assignments (operand : Action Expr) : Nat → Action Expr
  | 0 => throw .endless
  | fuel + 1 => do
    let target ← operand
    assignmentRest target (assignments operand fuel)

/-- The value of a token that is a literal by itself. -/
def literal? (t : Token) : Option Literal :=
  match t.kind with
  | .keyword .kFalse => some (.bool false)
  | .keyword .kTrue => some (.bool true)
  | .keyword .kNil => some .nil
  | .number | .string => some t.literal
  | _ => none

/-- Whether a token of a kind begins a primary expression. -/
def startsPrimary : Kind → Bool
  | .keyword .kFalse | .keyword .kTrue | .keyword .kNil => true
  | .number | .string | .identifier | .leftParen => true
  | _ => false

/-- The rest of an expression in parentheses, behind the first of them. -/
def groupRest (inner : Action Expr) : Action Expr := do
  let e ← inner
  let _ ← expect .rightParen "Expect ')' after expression."
  return .group e

/-- The primary expression that begins with a token. -/
def primaryFrom (inner : Action Expr) (t : Token) : Action Expr :=
  match literal? t with
  | some v => return .literal v
  | none => if t.kind = .identifier then return .reference t else groupRest inner

/-- A literal, a variable, or an expression in parentheses. -/
def primary (inner : Action Expr) : Action Expr := do
  match ← takeIf startsPrimary with
  | none => failHere .expression "Expect expression."
  | some t => primaryFrom inner t

/-! ### All levels -/

/-- Prefix operators in front of a primary expression, given the parser for parentheses. -/
def unaryLevel (fuel : Nat) (inner : Action Expr) : Action Expr := prefixed (primary inner) fuel

/-- Everything between assignments. -/
def equalityLevel (fuel : Nat) (inner : Action Expr) : Action Expr :=
  binary .equality fuel <| binary .comparison fuel <| binary .sum fuel <|
    binary .product fuel <| unaryLevel fuel inner

/-- A whole expression. -/
def assignmentLevel (fuel : Nat) (inner : Action Expr) : Action Expr :=
  assignments (equalityLevel fuel inner) fuel

/-- An expression.  Every round of a loop and every parenthesis takes a token, so the fuel need not
exceed the tokens left. -/
def expressionWithin : Nat → Action Expr
  | 0 => throw .endless
  | fuel + 1 => assignmentLevel (fuel + 1) (expressionWithin fuel)

/-- An expression. -/
def expression : Action Expr := do expressionWithin (← tokensLeft)

end LoxFront.Parse
