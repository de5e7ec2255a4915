import HclSyntax.Parser.Literal
import HclSyntax.Spelling
import HclSyntax.Template.Nesting

namespace HclSyntax

/-- A tilde at the end of an opening marker strips the text before it. -/
def Token.stripsBefore (t : Token) : Bool := t.bytes.getLast? == some 0x7E

/-- A tilde at the start of a closing marker strips the text after it. -/
def Token.stripsAfter (t : Token) : Bool := t.bytes.head? == some 0x7E

namespace Parser

/-- Passes the end of a template sequence, or skips to it after a report. Tells whether the text
after it is to be stripped. -/
def closeSequence (p : Problem) (start : SourceRange) : Parser Bool := do
  let close ← peek
  if close.kind = .sequenceEnd then
    skip
    return close.stripsAfter
  else
    reportFirst p close.range (some (.between start close.range))
    skipPast .sequenceEnd
    return false

def directiveKeywords : List String := ["if", "for", "else", "endif", "endfor"]

def loopCollection (expression : Parser Expr) (key : Option String) (value : String) :
    Parser (Option Directive) := do
  if ← atKeyword "in" then
    skip
    return some (.forStart key value (← expression))
  else
    reportFirst (.loop .missingIn) (← peek).range none
    return none

def loopHeader (expression : Parser Expr) : Parser (Option Directive) := do
  let first ← read
  if first.kind ≠ .identifier then
    reportFirst (.loop .missingVariable) first.range none
    return none
  if (← peekKind) ≠ .comma then
    return ← loopCollection expression none first.text
  skip
  let second ← read
  if second.kind ≠ .identifier then
    reportFirst (.loop .missingValueVariable) second.range none
    return none
  loopCollection expression (some first.text) second.text

def directiveContent (expression : Parser Expr) (opening keyword : Token) :
    Parser (Option Directive) := do
  match keyword.text with
  | "if" => return some (.ifStart (← expression))
  | "else" => return some .elseMark
  | "endif" => return some .endif
  | "for" => loopHeader expression
  | "endfor" => return some .endfor
  | name =>
    reportFirst (.unknownDirective name (Spelling.suggest? name directiveKeywords)) keyword.range
      (some (.between opening.range keyword.range))
    return none

def directive (expression : Parser Expr) (opening : Token) :
    Parser (Option TemplatePart × Bool) := do
  let keyword ← peek
  if keyword.kind ≠ .identifier then
    reportFirst .missingDirectiveKeyword keyword.range
      (some (.between opening.range keyword.range))
    skipPast .sequenceEnd
    return (none, false)
  skip
  match ← directiveContent expression opening keyword with
  | none =>
    skipPast .sequenceEnd
    return (none, false)
  | some d =>
    let strip ← closeSequence (.extraInDirective keyword.text) opening.range
    return (some (.directive d (.between opening.range (← previousRange))), strip)

def interpolation (expression : Parser Expr) (start : SourceRange) (opening : Token) :
    Parser (TemplatePart × Bool) := do
  let (e, strip) ← withNewlines false do
    let e ← expression
    return (e, ← closeSequence .extraInInterpolation start)
  return (.interpolation e (.between opening.range (← previousRange)), strip)

structure TemplateParts where
  parts : List TemplatePart
  strip : Bool

def TemplateParts.before (a : TemplateParts) (opening : Token) : List TemplatePart :=
  if opening.stripsBefore then TemplatePart.trimLast a.parts else a.parts

def templateStep (expression : Parser Expr) (closer : TokenKind) (start : SourceRange)
    (a : TemplateParts) : Parser (TemplateParts × Bool) := do
  let next ← read
  if next.kind = closer then return (a, false)
  match next.kind with
  | .quotedChunk | .plainChunk =>
    let text ← chunk next
    let text := if a.strip then TemplatePart.trimStart text else text
    return (⟨a.parts ++ [.text text next.range], false⟩, true)
  | .interpolation =>
    let (part, strip) ← interpolation expression start next
    return (⟨a.before next ++ [part], strip⟩, true)
  | .directive =>
    let (part, strip) ← withNewlines false (directive expression next)
    return (⟨a.before next ++ part.toList, strip⟩, true)
  | kind =>
    reportFirst .unterminatedTemplate next.range (some (.between start next.range))
    unless kind = .eof do skipPast closer
    recover
    return (a, false)

/-- The expression of a template. One that is nothing but an interpolation keeps its value. -/
def templateExpr (parts : List TemplatePart) (stop range : SourceRange) : Parser Expr := do
  let (exprs, problems) := Nesting.ofParts parts stop
  tell problems
  match parts, exprs with
  | [.interpolation ..], [inner] => return .templateWrap inner range
  | _, _ => return .template exprs range

/-- A template up to a token of kind `closer`. Its range starts with `opening`; without any part it
is one empty text. -/
def template (expression : Parser Expr) (opening : SourceRange) (closer : TokenKind) :
    Parser Expr := do
  let start := (← peek).range
  let a ← iterate (templateStep expression closer start) ⟨[], false⟩
  let close ← previousRange
  let parts :=
    if a.parts.isEmpty then [.text "" (.point start.filename start.start)] else a.parts
  templateExpr parts (.point close.filename close.start) (.between opening close)

def quotedTemplate (expression : Parser Expr) (opening : Token) : Parser Expr :=
  template expression opening.range opening.kind.opposite

end Parser

end HclSyntax
