import HclSyntax.Parser.Expression
import HclSyntax.Syntax.Body

namespace HclSyntax.Parser

/-- A way to run the parsers that read items and those that search for the next one. -/
structure Watch where
  on {α : Type} : Parser α → Parser α

def afterAttribute : TokenKind → Problem
  | .comma => .commaAfterAttribute
  | _ => .missingNewlineAfterAttribute

structure BlockHeader where
  labels : List String
  labelRanges : List SourceRange
  brace : Option Token

def reportHeader (name t : Token) : Parser Unit :=
  let context := some (SourceRange.between name.range t.range)
  match t.kind with
  | .assign => report .equalsInBlockHeader t.range context
  | .newline => report .newlineInBlockHeader t.range context
  | _ => reportFirst .invalidBlockHeader t.range context

def closeSingleLine : Parser Unit := do
  let close ← peek
  match close.kind with
  | .closeBrace => skip
  | kind =>
    match kind with
    | .comma => report .commaInSingleLineBlock close.range none
    | .newline => report .newlineInSingleLineBlock close.range none
    | _ => reportFirst .unclosedSingleLineBlock close.range none
    skipPast .closeBrace

structure Items where
  attributes : List Attribute
  blocks : List Block
  stop : SourceRange

/-- Adds an attribute. The first definition of a name counts, and every other is reported. -/
def Items.define (items : Items) (a : Attribute) : Parser Items := do
  match items.attributes.find? (·.name == a.name) with
  | none => return { items with attributes := items.attributes ++ [a] }
  | some first =>
    report (.attributeRedefined a.name first.nameRange) a.nameRange (some first.nameRange)
    return items

def reportItem (start : SourceRange) (t : Token) : Parser Unit :=
  match t.kind with
  | .openQuote => reportFirst .quotedName t.range none
  | .eof => reportFirst .unclosedBlock t.range (some (.between start t.range))
  | _ => reportFirst .definitionRequired t.range none

namespace Watch

variable (w : Watch)

def endOfLine (name : Token) (problem : TokenKind → Problem) : Parser Unit := do
  let next ← peek
  match next.kind with
  | .newline | .eof => skip
  | kind =>
    reportFirst (problem kind) next.range (some (.between name.range next.range))
    w.on skipItem

/-- An attribute after its equals sign. In a block on a single line the brace ends it, and whoever
reads the block sees to that. -/
def attributeValue (name equals : Token) (singleLine : Bool) : Parser Attribute := w.on do
  let (expr, lost) ← track expression
  let stop ← previousRange
  unless singleLine do
    if lost then w.on skipItem else w.endOfLine name afterAttribute
  return ⟨name.text, expr, .between name.range stop, name.range, equals.range⟩

def headerStep (name : Token) (h : BlockHeader) : Parser (BlockHeader × Bool) := do
  let t ← peek
  match t.kind with
  | .openBrace =>
    skip
    return ({ h with brace := some t }, false)
  | .openQuote =>
    skip
    let ((label, range), reported) ← observe (quotedString t)
    if reported then w.on skipItem
    return (⟨h.labels ++ [label], h.labelRanges ++ [range], none⟩, !reported)
  | _ =>
    reportHeader name t
    w.on skipItem
    return (h, false)

def singleLineBody : Parser (Option Body) := do
  let name ← read
  if name.kind ≠ .identifier then
    reportFirst .definitionRequired name.range none
    skipPast .closeBrace
    return none
  let next ← peek
  match next.kind with
  | .assign =>
    skip
    let a ← w.attributeValue name next true
    closeSingleLine
    return some ⟨[a], [], a.range, a.range.endPoint⟩
  | .openQuote | .openBrace | .identifier =>
    report (.singleAttributeRequired name.text) (.between name.range next.range) none
    skipPast .closeBrace
    return none
  | _ =>
    report .loneName name.range none
    skipPast .closeBrace
    return none

def blockBody (nested : Parser Body) : Parser (Option Body) := do
  match ← peekKind with
  | .newline | .eof | .closeBrace => return some (← nested)
  | _ => w.singleLineBody

/-- A block after its type. If its body could not be read it has an empty one, and if its header
could not be read it has none. -/
def block (nested : Parser Body) (name : Token) : Parser Block := w.on do
  let h ← iterate (w.headerStep name) ⟨[], [], none⟩
  match h.brace with
  | none => return ⟨name.text, h.labels, h.labelRanges, none, name.range, name.range, name.range⟩
  | some brace =>
    let body ← w.blockBody nested
    let close ← previousRange
    w.endOfLine name fun _ => .missingNewlineAfterBlock
    let body := body.getD (.empty (.between brace.range close))
    return ⟨name.text, h.labels, h.labelRanges, some body, name.range, brace.range, close⟩

def item (nested : Parser Body) (name : Token) (items : Items) : Parser Items := w.on do
  let next ← peek
  match next.kind with
  | .assign =>
    skip
    let a ← w.attributeValue name next false
    items.define a
  | .openQuote | .openBrace =>
    let b ← w.block nested name
    return { items with blocks := items.blocks ++ [b] }
  | _ =>
    w.on skipItem
    report .loneName name.range none
    return items

def bodyStep (nested : Parser Body) (closer : TokenKind) (start : SourceRange) (items : Items) :
    Parser (Items × Bool) := w.on do
  let next ← read
  if next.kind = closer then return ({ items with stop := next.range }, false)
  match next.kind with
  | .newline => return (items, true)
  | .identifier => return (← w.item nested next items, true)
  | _ =>
    reportItem start next
    skipPast closer
    return ({ items with stop := next.range }, false)

/-- A body up to a token of kind `closer`, the bodies in it being read by `nested`. Its range starts
with the token before it. -/
def bodyWith (nested : Parser Body) (closer : TokenKind) : Parser Body := w.on do
  let start ← previousRange
  let items ← iterate (w.bodyStep nested closer start) ⟨[], [], start⟩
  return ⟨items.attributes, items.blocks, .between start items.stop, items.stop.endPoint⟩

def bodyFor : Nat → TokenKind → Parser Body
  | 0, _ => do
    let e ← invalid
    return .empty e.range
  | depth + 1, closer => w.bodyWith (bodyFor depth .closeBrace) closer

/-- A body up to a token of kind `closer`. Every block in it passes tokens of its own, so blocks
nest less deep than there are tokens. -/
def body (closer : TokenKind) : Parser Body := fun s =>
  w.bodyFor (s.cursor.remaining + 1) closer s

def idle : Watch := ⟨fun p => p⟩

theorem idle_on {α : Type} (p : Parser α) : idle.on p = p := rfl

end Watch

abbrev endOfLine := Watch.idle.endOfLine
abbrev attributeValue := Watch.idle.attributeValue
abbrev headerStep := Watch.idle.headerStep
abbrev singleLineBody := Watch.idle.singleLineBody
abbrev blockBody := Watch.idle.blockBody
abbrev block := Watch.idle.block
abbrev item := Watch.idle.item
abbrev bodyStep := Watch.idle.bodyStep
abbrev bodyWith := Watch.idle.bodyWith
abbrev bodyFor := Watch.idle.bodyFor
abbrev body := Watch.idle.body

end HclSyntax.Parser
