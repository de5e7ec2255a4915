import HclSyntax.Parser.Resync
import HclSyntax.StringChunk

namespace HclSyntax.Parser

def numberValue (t : Token) : Parser Value :=
  match Number.parse t.text with
  | .ok n => return .number n
  | .error _ => do
    report .invalidNumber t.range none
    return .unknown .number

def chunk (t : Token) : Parser String := do
  let (text, problems) := StringChunk.decode t
  tell problems
  return text

structure QuotedText where
  text : String
  stop : SourceRange

/-- One token of a string after its opening quote. A template sequence is left out and marked, so
that the string is not taken for what it says. -/
def quotedStep (opening : Token) (q : QuotedText) : Parser (QuotedText × Bool) := do
  let t ← read
  let context := some (SourceRange.between opening.range t.range)
  let sequence (marker : String) : Parser (QuotedText × Bool) := do
    report (.sequenceInString marker) t.range context
    skipPast .sequenceEnd
    return ({ q with text := q.text ++ marker ++ "\x7b ... \x7d" }, true)
  match t.kind with
  | .closeQuote => return ({ q with stop := t.range }, false)
  | .quotedChunk => return ({ q with text := q.text ++ (← chunk t) }, true)
  | .interpolation => sequence "$"
  | .directive => sequence "!"
  | .eof =>
    report .unterminatedString t.range context
    return ({ q with stop := t.range }, false)
  | _ =>
    report .invalidStringItem t.range context
    skipPast .closeQuote
    return ({ q with stop := t.range }, false)

def quotedString (opening : Token) : Parser (String × SourceRange) := do
  let q ← iterate (quotedStep opening) ⟨"", opening.range⟩
  return (q.text, .between opening.range q.stop)

end HclSyntax.Parser
