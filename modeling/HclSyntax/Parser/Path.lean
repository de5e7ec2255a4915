import HclSyntax.Parser.Literal

namespace HclSyntax.Parser

structure SplatSteps where
  steps : Traversal
  last : SourceRange

def splatStep (a : SplatSteps) : Parser (SplatSteps × Bool) := do
  if (← peekKind) ≠ .dot then return (a, false)
  let dot ← read
  let name ← peek
  let range := SourceRange.between dot.range name.range
  match name.kind with
  | .identifier =>
    skip
    return (⟨a.steps ++ [.attr name.text range], name.range⟩, true)
  | .number =>
    skip
    let key ← numberValue name
    return (⟨a.steps ++ [.index key range], name.range⟩, true)
  | kind =>
    reportFirst (if kind = .star then .nestedSplat else .missingAttributeName) name.range none
    recover
    return (a, false)

def attributeSplat (source : Expr) (dot star : Token) : Parser Expr := do
  let marker := SourceRange.between dot.range star.range
  let a ← iterate splatStep ⟨[], star.range⟩
  let each :=
    if a.steps.isEmpty then .element marker
    else .relativeTraversal (.element marker) a.steps (.between marker a.last)
  return .splat source each marker marker (.between source.range a.last)

/-- A full splat, after its bracket and star. Every suffix that follows belongs to it. -/
def fullSplat (suffixes : Expr → Parser Expr) (source : Expr) (opening : Token) :
    Parser Expr := do
  let close ← read
  if close.kind ≠ .closeBracket ∧ !(← recovering) then
    report .unclosedSplat close.range none
    skipPast .closeBracket
  let marker := SourceRange.between opening.range (← previousRange)
  let each ← suffixes (.element marker)
  return .splat source each marker marker (.between source.range each.range)

def indexKey (expression : Parser Expr) : Parser Expr :=
  withNewlines false do
    let (key, lost) ← track expression
    if lost then skipPast .closeBracket
    else
      let close ← read
      if close.kind ≠ .closeBracket ∧ !(← recovering) then
        report .unclosedIndex close.range none
        skipPast .closeBracket
    return key

/-- An index after its opening bracket. A constant key is a step of a path. -/
def index (expression : Parser Expr) (collection : Expr) (opening : Token) : Parser Expr := do
  let key ← indexKey expression
  let range := SourceRange.between opening.range (← previousRange)
  match key.staticKey? with
  | some value => return collection.step (.index value range)
  | none => return .index collection key opening.range (.between collection.range range)

def dotSuffix (e : Expr) : Parser Expr := do
  let dot ← read
  let next ← peek
  match next.kind with
  | .identifier =>
    skip
    return e.step (.attr next.text (.between dot.range next.range))
  | .star =>
    skip
    attributeSplat e dot next
  | _ =>
    report .missingAttributeName next.range none
    recover
    return e

def bracketSuffix (expression : Parser Expr) (suffixes : Expr → Parser Expr) (e : Expr) :
    Parser Expr := do
  let opening ← read
  if (← peekKind) = .star then
    skip
    fullSplat suffixes e opening
  else index expression e opening

def suffixStep (expression : Parser Expr) (suffixes : Expr → Parser Expr) (e : Expr) :
    Parser (Expr × Bool) := do
  match ← peekKind with
  | .dot => return (← dotSuffix e, true)
  | .openBracket => return (← bracketSuffix expression suffixes e, true)
  | _ => return (e, false)

def constantKey (root : Token) : Parser (Option Value) := do
  let t ← peek
  match t.kind with
  | .number =>
    skip
    return some (← numberValue t)
  | .openQuote =>
    skip
    let (text, _) ← quotedString t
    return some (.string text)
  | kind =>
    report (if kind = .star then .splatIndexInTraversal else .missingIndexKey) t.range
      (some (.between root.range t.range))
    return none

def constantIndex (root opening : Token) : Parser (Option TraversalStep) := do
  match ← constantKey root with
  | none => return none
  | some key =>
    let close ← read
    let range := SourceRange.between opening.range close.range
    if close.kind ≠ .closeBracket then report .unclosedStep close.range (some range)
    return some (.index key range)

/-- One step of a traversal that stands alone. It ends with the file or with the first mistake. -/
def traversalStep (root : Token) (steps : Traversal) : Parser (Traversal × Bool) := do
  let next ← peek
  match next.kind with
  | .eof => return (steps, false)
  | .dot =>
    skip
    let name ← read
    if name.kind = .identifier then
      return (steps ++ [.attr name.text (.between next.range name.range)], true)
    report (if name.kind = .star then .splatInTraversal else .missingStepName) name.range
      (some (.between root.range name.range))
    return (steps, false)
  | .openBracket =>
    skip
    let (step, reported) ← observe (constantIndex root next)
    return (steps ++ step.toList, !reported)
  | _ =>
    report .invalidStep next.range (some (.between root.range next.range))
    return (steps, false)

def traversal : Parser Traversal := do
  let root ← read
  if root.kind ≠ .identifier then
    report .missingVariableName root.range none
    return []
  iterate (traversalStep root) [.root root.text root.range]

end HclSyntax.Parser
