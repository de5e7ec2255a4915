import HclSyntax.Parser.Basic

namespace HclSyntax.Parser

/-- The kind by which brackets of `closer` are counted: both openings of a template sequence are
one. -/
def countedAs (closer kind : TokenKind) : TokenKind :=
  if closer = .sequenceEnd ∧ kind = .directive then .interpolation else kind

def skipPastStep (closer : TokenKind) (depth : Nat) : Parser (Nat × Bool) := do
  let kind := countedAs closer (← read).kind
  if kind = .eof then return (depth, false)
  else if kind = closer then return (depth - 1, depth ≠ 0)
  else if kind = closer.opposite then return (depth + 1, true)
  else return (depth, true)

/-- Passes all tokens up to the closer that belongs to no bracket opened on the way, or to the end
of the file. -/
def skipPast (closer : TokenKind) : Parser Unit := do
  recover
  let _ ← iterate (skipPastStep closer) 0

/-- The open brackets once `closer` has closed its own and all inside it. A closer that has none
closes all. -/
def closeTo (closer : TokenKind) (opened : List TokenKind) : List TokenKind :=
  (opened.dropWhile (!·.opens closer)).drop 1

def skipItemStep (opened : List TokenKind) : Parser (List TokenKind × Bool) := do
  let kind := (← read).kind
  if kind = .eof ∨ kind = .newline ∧ opened = [] then return (opened, false)
  else if kind.isOpener then return (kind :: opened, true)
  else if kind.isCloser then return (closeTo kind opened, true)
  else return (opened, true)

/-- Passes all tokens up to the first newline outside of brackets, or to the end of the file. -/
def skipItem : Parser Unit := do
  recover
  let _ ← iterate skipItemStep []

end HclSyntax.Parser
