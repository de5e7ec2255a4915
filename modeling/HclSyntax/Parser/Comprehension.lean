import HclSyntax.Parser.Resync

namespace HclSyntax.Parser

def reportComprehension (opening : Token) (p : ComprehensionProblem) : Parser Unit := do
  let t ← peek
  reportFirst (.comprehension p) t.range (some (.between opening.range t.range))

def abandonComprehension (opening : Token) : Parser Expr := do
  skipPast opening.kind.opposite
  return .placeholder (.between opening.range (← previousRange))

def inKeyword (opening : Token) (key : Option String) (value : String) :
    Parser (Option (Option String × String)) := do
  if ← atKeyword "in" then
    skip
    return some (key, value)
  else
    reportComprehension opening .missingIn
    return none

/-- The variable for keys, if there are two, the variable for values, and the keyword after them;
none after a mistake. -/
def binders (opening : Token) : Parser (Option (Option String × String)) := do
  if (← peekKind) ≠ .identifier then
    reportComprehension opening .missingVariable
    return none
  let first ← read
  if (← peekKind) ≠ .comma then
    return ← inKeyword opening none first.text
  skip
  if (← peekKind) ≠ .identifier then
    reportComprehension opening .missingValueVariable
    return none
  let second ← read
  inKeyword opening (some first.text) second.text

def resultPair (expression : Parser Expr) : Parser (Option Expr × Expr) := do
  let first ← expression
  if (← peekKind) = .fatArrow then
    skip
    let value ← expression
    return (some first, value)
  else return (none, first)

def filter (expression : Parser Expr) : Parser (Option Expr) := do
  if ← atKeyword "if" then
    skip
    return some (← expression)
  else return none

def groupingEllipsis : Parser (Option Token) := do
  if (← peekKind) = .ellipsis then return some (← read) else return none

def closeComprehension (opening : Token) : Parser SourceRange := do
  if (← peekKind) = opening.kind.opposite then skip
  else
    reportComprehension opening .extraCharacters
    skipPast opening.kind.opposite
  previousRange

/-- An object needs a key, and a tuple can have neither a key nor groups. -/
def checkResult (opening : Token) (key : Option Expr) (value : Expr) (ellipsis : Option Token)
    (whole : SourceRange) : Parser Unit := do
  if opening.kind = .openBrace then
    if key.isNone then report (.comprehension .missingKey) value.range (some whole)
  else
    if let some key := key then
      report (.comprehension .unexpectedKey) key.range (some whole)
    if let some ellipsis := ellipsis then
      report (.comprehension .unexpectedGrouping) ellipsis.range (some whole)

def comprehensionResult (expression : Parser Expr) (opening : Token) (keyVar : Option String)
    (valueVar : String) (collection : Expr) : Parser Expr := do
  let ((key, value), lost) ← track (resultPair expression)
  if lost then return ← abandonComprehension opening
  let ellipsis ← groupingEllipsis
  let (condition, lost) ← track (filter expression)
  if lost then return ← abandonComprehension opening
  let close ← closeComprehension opening
  let whole := SourceRange.between opening.range close
  checkResult opening key value ellipsis whole
  return .comprehension keyVar valueVar collection key value condition ellipsis.isSome
    opening.range close whole

def comprehension (expression : Parser Expr) (opening : Token) : Parser Expr :=
  withNewlines false do
    skip
    match ← binders opening with
    | none => abandonComprehension opening
    | some (keyVar, valueVar) =>
      let (collection, lost) ← track expression
      if lost then return ← abandonComprehension opening
      if (← peekKind) ≠ .colon then
        reportComprehension opening .missingColon
        return ← abandonComprehension opening
      skip
      comprehensionResult expression opening keyVar valueVar collection

end HclSyntax.Parser
