import HclSyntax.Parser.Collection
import HclSyntax.Parser.Operator
import HclSyntax.Parser.Path
import HclSyntax.Parser.Template

namespace HclSyntax

/-- The parsers that call each other, as one function of the production. -/
inductive Production where
  | expression
  | operand
  /-- The suffixes of an expression that is there already. -/
  | suffixes (e : Expr)

abbrev Grammar := Production → Parser Expr

namespace Parser

def nameExpr (t : Token) : Expr :=
  match t.text with
  | "true" => .literal (.bool true) t.range
  | "false" => .literal (.bool false) t.range
  | "null" => .literal .null t.range
  | name => .scopeTraversal [.root name t.range] t.range

def nameOrCall (g : Grammar) : Parser Expr := do
  let name ← read
  if (← peekKind) = .openParen then
    let opening ← read
    call (g .expression) name opening
  else return nameExpr name

/-- An operator and its operand, which takes suffixes but no binary operators. -/
def unary (g : Grammar) (op : UnaryOp) : Parser Expr := do
  let symbol ← read
  let operand ← g .operand
  return .unary op operand symbol.range (.between symbol.range operand.range)

def closeParenthesis (opening : Token) : Parser Unit := do
  let close ← peek
  if close.kind ≠ .closeParen then
    report .unbalancedParens close.range (some (.between opening.range close.range))
    recover
  skip

def parenthesized (g : Grammar) : Parser Expr := do
  let opening ← read
  withNewlines false do
    let (e, reported) ← observe (g .expression)
    if reported then skipPast .closeParen else closeParenthesis opening
    return e

def term (g : Grammar) : Parser Expr := do
  let start ← peek
  match start.kind with
  | .openParen => parenthesized g
  | .number =>
    skip
    return .literal (← numberValue start) start.range
  | .identifier => nameOrCall g
  | .openQuote | .openHeredoc =>
    skip
    quotedTemplate (g .expression) start
  | .minus => unary g .negate
  | .not => unary g .not
  | .openBracket =>
    skip
    tuple (g .expression) start
  | .openBrace =>
    skip
    object (g .expression) start
  | _ => invalid

def suffixes (g : Grammar) (e : Expr) : Parser Expr :=
  iterate (suffixStep (g .expression) fun each => g (.suffixes each)) e

def operand (g : Grammar) : Parser Expr := do
  let e ← term g
  suffixes g e

def production (g : Grammar) : Production → Parser Expr
  | .expression => conditional (g .expression) (operand g)
  | .operand => operand g
  | .suffixes e => suffixes g e

def grammar : Nat → Grammar
  | 0, .suffixes e => do
    let _ ← invalid
    return e
  | 0, _ => invalid
  | depth + 1, p => production (grammar depth) p

/-- An expression. A token is passed before each production inside another, so no expression nests
deeper than there are tokens. -/
def expression : Parser Expr := fun s => grammar (s.cursor.remaining + 1) .expression s

end Parser

end HclSyntax
