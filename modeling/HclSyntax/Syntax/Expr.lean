import HclSyntax.Source
import HclSyntax.Value

namespace HclSyntax

inductive TraversalStep where
  | root (name : String) (range : SourceRange)
  | attr (name : String) (range : SourceRange)
  | index (key : Value) (range : SourceRange)
  deriving DecidableEq, Repr

abbrev Traversal := List TraversalStep

def TraversalStep.range : TraversalStep → SourceRange
  | .root _ r | .attr _ r | .index _ r => r

inductive BinaryOp where
  | or | and
  | equal | notEqual
  | greater | greaterEqual | less | lessEqual
  | add | subtract
  | multiply | divide | modulo
  deriving DecidableEq, Repr

def BinaryOp.symbol : BinaryOp → String
  | .or => "||"
  | .and => "&&"
  | .equal => "=="
  | .notEqual => "!="
  | .greater => ">"
  | .greaterEqual => ">="
  | .less => "<"
  | .lessEqual => "<="
  | .add => "+"
  | .subtract => "-"
  | .multiply => "*"
  | .divide => "/"
  | .modulo => "%"

inductive UnaryOp where
  | negate | not
  deriving DecidableEq, Repr

def UnaryOp.symbol : UnaryOp → String
  | .negate => "-"
  | .not => "!"

/-- The last field of every constructor is the range of the whole node. -/
inductive Expr where
  | literal (value : Value) (range : SourceRange)
  /-- A template that is one interpolation, which keeps the value as it is. -/
  | templateWrap (inner : Expr) (range : SourceRange)
  | template (parts : List Expr) (range : SourceRange)
  /-- The texts of the elements of a tuple in a row. -/
  | templateJoin (inner : Expr) (range : SourceRange)
  | tuple (items : List Expr) (openRange : SourceRange) (range : SourceRange)
  | object (items : List (Expr × Expr)) (openRange : SourceRange) (range : SourceRange)
  | conditional (condition ifTrue ifFalse : Expr) (range : SourceRange)
  | binary (op : BinaryOp) (lhs rhs : Expr) (range : SourceRange)
  | unary (op : UnaryOp) (operand : Expr) (symbolRange : SourceRange) (range : SourceRange)
  | scopeTraversal (steps : Traversal) (range : SourceRange)
  | relativeTraversal (source : Expr) (steps : Traversal) (range : SourceRange)
  /-- An element by a key that is no constant. -/
  | index (collection key : Expr) (openRange : SourceRange) (range : SourceRange)
  /-- `each` for every element of `source`. -/
  | splat (source each : Expr) (itemRange markerRange : SourceRange) (range : SourceRange)
  /-- The element at hand inside a splat. -/
  | element (range : SourceRange)
  | call (name : String) (args : List Expr) (expandFinal : Bool)
      (nameRange openRange closeRange : SourceRange) (range : SourceRange)
  /-- A comprehension; with `group` the values of equal keys are gathered in tuples. -/
  | comprehension (keyVar : Option String) (valueVar : String) (collection : Expr)
      (key : Option Expr) (value : Expr) (condition : Option Expr) (group : Bool)
      (openRange closeRange : SourceRange) (range : SourceRange)
  deriving Repr

namespace Expr

def range : Expr → SourceRange
  | literal _ r | templateWrap _ r | template _ r | templateJoin _ r | tuple _ _ r
  | object _ _ r | conditional _ _ _ r | binary _ _ _ r | unary _ _ _ r | scopeTraversal _ r
  | relativeTraversal _ _ r | index _ _ _ r | splat _ _ _ _ r | element r
  | call _ _ _ _ _ _ r | comprehension _ _ _ _ _ _ _ _ _ r => r

def placeholder (range : SourceRange) : Expr := literal .placeholder range

instance : Inhabited Expr := ⟨placeholder default⟩

def literal? : Expr → Option Value
  | literal v _ => some v
  | _ => none

def rootName? : Expr → Option String
  | scopeTraversal (.root name _ :: _) _ => some name
  | _ => none

def isPlaceholder : Expr → Bool
  | literal (.unknown _) _ => true
  | _ => false

/-- One step further. Steps gather in one path, and a value that is no path yet begins one. -/
def step (e : Expr) (s : TraversalStep) : Expr :=
  let range := SourceRange.between e.range s.range
  match e with
  | scopeTraversal steps _ => scopeTraversal (steps ++ [s]) range
  | relativeTraversal source steps _ => relativeTraversal source (steps ++ [s]) range
  | _ => relativeTraversal e [s] range

/-- The constant that a key is: a literal, or a template of one literal string. -/
def staticKey? : Expr → Option Value
  | literal v _ => some v
  | template [literal (.string s) _] _ => some (.string s)
  | _ => none

end Expr

end HclSyntax
