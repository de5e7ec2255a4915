import HclSyntax.Parser.Body

namespace HclSyntax

/-- A body up to a token of kind `closer`; for a file that is its end. -/
def parseBody (tokens : TokenList) (closer : TokenKind) : Body × List Diagnostic :=
  (Parser.body closer).run tokens

def Parser.wholeExpression : Parser Expr :=
  withNewlines false do
    let e ← expression
    let next ← peek
    if next.kind ≠ .eof then reportFirst .extraAfterExpression next.range none
    return e

def parseExpression (tokens : TokenList) : Expr × List Diagnostic :=
  Parser.wholeExpression.run tokens

def Parser.wholeTemplate : Parser Expr := do
  let start ← peek
  template expression start.range .eof

def parseTemplate (tokens : TokenList) : Expr × List Diagnostic :=
  Parser.wholeTemplate.run tokens

/-- A path of constant steps. After a mistake it has the steps before it. -/
def parseTraversal (tokens : TokenList) : Traversal × List Diagnostic :=
  (Parser.withNewlines false Parser.traversal).run tokens

end HclSyntax
