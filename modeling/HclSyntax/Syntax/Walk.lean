import HclSyntax.Syntax.Body

namespace HclSyntax

inductive ExprStop where
  | expr (e : Expr)
  /-- The comprehension with this value variable, after its node. -/
  | comprehension (valueVar : String)
  /-- From here on these names are variables of a comprehension. -/
  | enter (names : List String)
  | leave

inductive Stop where
  | body (b : Body)
  | attr (a : Attribute)
  | block (b : Block)
  | expr (s : ExprStop)

mutual

/-- Every node before its children. The collection of a comprehension lies outside the scope of its
variables. -/
def Expr.walk (e : Expr) : List ExprStop :=
  .expr e :: match e with
  | .literal .. | .scopeTraversal .. | .element .. => []
  | .templateWrap inner _ | .templateJoin inner _ => inner.walk
  | .template parts _ => walkAll parts
  | .tuple items _ _ => walkAll items
  | .object items _ _ => walkItems items
  | .conditional condition ifTrue ifFalse _ => condition.walk ++ ifTrue.walk ++ ifFalse.walk
  | .binary _ lhs rhs _ => lhs.walk ++ rhs.walk
  | .unary _ operand _ _ => operand.walk
  | .relativeTraversal source _ _ => source.walk
  | .index collection key _ _ => collection.walk ++ key.walk
  | .splat source each _ _ _ => source.walk ++ each.walk
  | .call _ args _ _ _ _ _ => walkAll args
  | .comprehension keyVar valueVar collection key value condition _ _ _ _ =>
    .comprehension valueVar :: collection.walk ++ .enter (keyVar.toList ++ [valueVar]) ::
      walkOption key ++ value.walk ++ walkOption condition ++ [.leave]

def walkAll : List Expr → List ExprStop
  | [] => []
  | e :: es => e.walk ++ walkAll es

def walkItems : List (Expr × Expr) → List ExprStop
  | [] => []
  | item :: items => walkItem item ++ walkItems items

def walkItem : Expr × Expr → List ExprStop
  | (key, value) => key.walk ++ value.walk

def walkOption : Option Expr → List ExprStop
  | none => []
  | some e => e.walk

end

/-- Runs through a walk with the names that are bound, innermost scope first, and keeps the paths
from all other variables. -/
def freeTraversals (bound : List (List String)) : List ExprStop → List Traversal
  | [] => []
  | .expr (.scopeTraversal steps range) :: stops =>
    let name? := (Expr.scopeTraversal steps range).rootName?
    if bound.any fun names => name?.any names.contains then freeTraversals bound stops
    else steps :: freeTraversals bound stops
  | .enter names :: stops => freeTraversals (names :: bound) stops
  | .leave :: stops => freeTraversals bound.tail stops
  | _ :: stops => freeTraversals bound stops

/-- The paths from variables that an expression needs from its scope, in source order. -/
def Expr.variables (e : Expr) : List Traversal := freeTraversals [] e.walk

def Attribute.walk (a : Attribute) : List Stop := .attr a :: a.expr.walk.map .expr

mutual

/-- Attributes as they stand in the file, then blocks. -/
def Body.walk : Body → List Stop
  | b@⟨_, blocks, _, _⟩ =>
    .body b :: b.sortedAttributes.flatMap Attribute.walk ++ walkBlocks blocks

def walkBlocks : List Block → List Stop
  | [] => []
  | b :: bs => b.walk ++ walkBlocks bs

def Block.walk : Block → List Stop
  | b@⟨_, _, _, body, _, _, _⟩ => .block b :: walkBody body

def walkBody : Option Body → List Stop
  | none => []
  | some b => b.walk

end

def Body.allAttributes (b : Body) : List Attribute :=
  b.walk.filterMap fun
    | .attr a => some a
    | _ => none

end HclSyntax
