import HclSyntax.Parser.Comprehension

namespace HclSyntax.Parser

def tupleStep (expression : Parser Expr) (opening : Token) (items : List Expr) :
    Parser (List Expr × Bool) := do
  if (← peekKind) = .closeBracket then
    skip
    return (items, false)
  let (item, lost) ← track expression
  let items := items ++ [item]
  if lost then
    skipPast .closeBracket
    return (items, false)
  let next ← peek
  match next.kind with
  | .closeBracket =>
    skip
    return (items, false)
  | .comma =>
    skip
    return (items, true)
  | _ =>
    reportFirst .missingTupleSeparator next.range (some (.between opening.range next.range))
    skipPast .closeBracket
    return (items, false)

def tuple (expression : Parser Expr) (opening : Token) : Parser Expr :=
  withNewlines false do
    if ← atKeyword "for" then comprehension expression opening
    else
      let items ← iterate (tupleStep expression opening) []
      return .tuple items opening.range (.between opening.range (← previousRange))

/-- A name for a key stands for itself, not for the variable or the constant of that name. -/
def objectKey (key : Expr) (start : Token) : Expr :=
  match key with
  | .literal (.bool _) r | .literal .null r =>
    if start.kind = .identifier ∧ r = start.range then .literal (.string start.text) r else key
  | .scopeTraversal [.root name _] r => .literal (.string name) r
  | _ => key

def missingValue : TokenKind → Problem
  | .newline | .comma => .missingItemValue
  | .identifier => .missingKeySeparatorBeforeName
  | _ => .missingKeySeparator

def objectSeparator (opening : Token) : Parser Bool := do
  let next ← peek
  match next.kind with
  | .closeBrace =>
    skip
    return false
  | .comma | .newline =>
    skip
    return true
  | _ =>
    reportFirst .missingObjectSeparator next.range (some (.between opening.range next.range))
    skipPast .closeBrace
    return false

/-- One key with its value. A key in parentheses is an expression, not a name. -/
def objectItem (expression : Parser Expr) (opening : Token) (items : List (Expr × Expr)) :
    Parser (List (Expr × Expr) × Bool) := do
  let start ← peek
  let (key, lost) ← track expression
  if lost then
    skipPast .closeBrace
    return (items, false)
  let key := if start.kind = .openParen then key else objectKey key start
  let next ← peek
  if next.kind ≠ .assign ∧ next.kind ≠ .colon then
    reportFirst (missingValue next.kind) next.range (some (.between opening.range next.range))
    skipPast .closeBrace
    return (items, false)
  skip
  let (value, lost) ← track expression
  let items := items ++ [(key, value)]
  if lost then
    skipPast .closeBrace
    return (items, false)
  return (items, ← objectSeparator opening)

def objectStep (expression : Parser Expr) (opening : Token) (items : List (Expr × Expr)) :
    Parser (List (Expr × Expr) × Bool) := do
  match ← peekKind with
  | .newline =>
    skip
    return (items, true)
  | .closeBrace =>
    skip
    return (items, false)
  | _ => objectItem expression opening items

def object (expression : Parser Expr) (opening : Token) : Parser Expr :=
  withNewlines true do
    if ← atKeyword "for" then comprehension expression opening
    else
      let items ← iterate (objectStep expression opening) []
      return .object items opening.range (.between opening.range (← previousRange))

structure Arguments where
  args : List Expr
  expandFinal : Bool

def argumentStep (expression : Parser Expr) (name opening : Token) (a : Arguments) :
    Parser (Arguments × Bool) := do
  if (← peekKind) = .closeParen then
    skip
    return (a, false)
  let (arg, lost) ← track expression
  let a := { a with args := a.args ++ [arg] }
  if lost then
    skipPast .closeParen
    return (a, false)
  let sep ← read
  let context := some (SourceRange.between name.range sep.range)
  match sep.kind with
  | .closeParen => return (a, false)
  | .comma => return (a, true)
  | .ellipsis =>
    if (← peekKind) = .closeParen then skip
    else
      reportFirst .expansionNotLast sep.range context
      skipPast .closeParen
    return ({ a with expandFinal := true }, false)
  | .eof =>
    report .unterminatedCall (.between name.range opening.range) none
    skipPast .closeParen
    return (a, false)
  | _ =>
    report .missingArgumentSeparator sep.range context
    skipPast .closeParen
    return (a, false)

def call (expression : Parser Expr) (name opening : Token) : Parser Expr := do
  let a ← withNewlines false (iterate (argumentStep expression name opening) ⟨[], false⟩)
  let close ← previousRange
  return .call name.text a.args a.expandFinal name.range opening.range close
    (.between name.range close)

end HclSyntax.Parser
