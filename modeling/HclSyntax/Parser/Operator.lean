import HclSyntax.Parser.Basic

namespace HclSyntax

abbrev Level := List (TokenKind × BinaryOp)

/-- All binary operators, those that bind loosest first. -/
def BinaryOp.levels : List Level := [
  [(.or, .or)],
  [(.and, .and)],
  [(.equal, .equal), (.notEqual, .notEqual)],
  [(.greater, .greater), (.greaterEqual, .greaterEqual), (.less, .less),
    (.lessEqual, .lessEqual)],
  [(.plus, .add), (.minus, .subtract)],
  [(.star, .multiply), (.slash, .divide), (.percent, .modulo)]]

namespace Parser

def operatorStep (tighter : Parser Expr) (level : Level) (lhs : Expr) : Parser (Expr × Bool) := do
  match level.lookup (← peekKind) with
  | none => return (lhs, false)
  | some op =>
    skip
    let (rhs, lost) ← track tighter
    if lost then return (lhs, false)
    return (.binary op lhs rhs (.between lhs.range rhs.range), true)

/-- Operands with operators of one level between them, which group to the left. -/
def operators (level : Level) (tighter : Parser Expr) : Parser Expr := do
  let (lhs, lost) ← track tighter
  if lost then return lhs
  iterate (operatorStep tighter level) lhs

def binary (operand : Parser Expr) : Parser Expr := BinaryOp.levels.foldr operators operand

/-- A condition, and its two results if a question mark follows. Of a conditional that breaks off
only the condition is kept. -/
def conditional (expression operand : Parser Expr) : Parser Expr := do
  let start := (← peek).range
  let (condition, lost) ← track (binary operand)
  if lost then return condition
  if (← peekKind) ≠ .question then return condition
  skip
  let (ifTrue, lost) ← track expression
  if lost then return condition
  let colon ← peek
  if colon.kind ≠ .colon then
    report .missingAlternative colon.range (some (.between start colon.range))
    return condition
  skip
  let (ifFalse, lost) ← track expression
  if lost then return condition
  return .conditional condition ifTrue ifFalse (.between start ifFalse.range)

end Parser

end HclSyntax
