import HclSyntax.Syntax.Body
import HclSyntax.Template.Nesting

namespace HclSyntax

/-- One step of a path. -/
inductive Step where
  | root (name : String)
  | attr (name : String)
  | index (key : Value)
  deriving DecidableEq, Repr

/-- An expression without ranges. -/
inductive Tree where
  | literal (value : Value)
  | templateWrap (inner : Tree)
  | template (parts : List Tree)
  | templateJoin (inner : Tree)
  | tuple (items : List Tree)
  | object (items : List (Tree × Tree))
  | conditional (condition ifTrue ifFalse : Tree)
  | binary (op : BinaryOp) (lhs rhs : Tree)
  | unary (op : UnaryOp) (operand : Tree)
  | scope (steps : List Step)
  | relative (source : Tree) (steps : List Step)
  | index (collection key : Tree)
  | splat (source each : Tree)
  | element
  | call (name : String) (args : List Tree) (expandFinal : Bool)
  | comprehension (keyVar : Option String) (valueVar : String) (collection : Tree)
      (key : Option Tree) (value : Tree) (condition : Option Tree) (group : Bool)
  deriving Repr

namespace Tree

/-- A name that stands alone: a constant or a variable. -/
def name (text : String) : Tree :=
  match text with
  | "true" => literal (.bool true)
  | "false" => literal (.bool false)
  | "null" => literal .null
  | name => scope [.root name]

/-- What a name that stands alone can mean. -/
def isName : Tree → Bool
  | literal (.bool _) | literal .null | scope [.root _] => true
  | _ => false

/-- One step further. -/
def step (t : Tree) (s : Step) : Tree :=
  match t with
  | scope steps => scope (steps ++ [s])
  | relative source steps => relative source (steps ++ [s])
  | _ => relative t [s]

/-- The constant that a key is. -/
def staticKey? : Tree → Option Value
  | literal v => some v
  | template [literal (.string s)] => some (.string s)
  | _ => none

end Tree

def TraversalStep.plain : TraversalStep → Step
  | .root name _ => .root name
  | .attr name _ => .attr name
  | .index key _ => .index key

namespace Expr

mutual

/-- The expression without its ranges. -/
def tree : Expr → Tree
  | literal v _ => .literal v
  | templateWrap inner _ => .templateWrap inner.tree
  | template parts _ => .template (treeAll parts)
  | templateJoin inner _ => .templateJoin inner.tree
  | tuple items _ _ => .tuple (treeAll items)
  | object items _ _ => .object (treeItems items)
  | conditional condition ifTrue ifFalse _ => .conditional condition.tree ifTrue.tree ifFalse.tree
  | binary op lhs rhs _ => .binary op lhs.tree rhs.tree
  | unary op operand _ _ => .unary op operand.tree
  | scopeTraversal steps _ => .scope (steps.map TraversalStep.plain)
  | relativeTraversal source steps _ => .relative source.tree (steps.map TraversalStep.plain)
  | index collection key _ _ => .index collection.tree key.tree
  | splat source each _ _ _ => .splat source.tree each.tree
  | element _ => .element
  | call name args expand _ _ _ _ => .call name (treeAll args) expand
  | comprehension k v collection key value condition group _ _ _ =>
    .comprehension k v collection.tree (treeOption key) value.tree (treeOption condition) group

def treeAll : List Expr → List Tree
  | [] => []
  | e :: es => e.tree :: treeAll es

def treeItems : List (Expr × Expr) → List (Tree × Tree)
  | [] => []
  | item :: items => treeItem item :: treeItems items

def treeItem : Expr × Expr → Tree × Tree
  | (key, value) => (key.tree, value.tree)

def treeOption : Option Expr → Option Tree
  | none => none
  | some e => some e.tree

end

@[simp] theorem treeAll_eq (es : List Expr) : treeAll es = es.map tree := by
  induction es with
  | nil => rfl
  | cons e es ih => simp [treeAll, ih]

@[simp] theorem treeItems_eq (items : List (Expr × Expr)) :
    treeItems items = items.map fun i => (i.1.tree, i.2.tree) := by
  induction items with
  | nil => rfl
  | cons i items ih =>
    obtain ⟨key, value⟩ := i
    simp [treeItems, treeItem, ih]

@[simp] theorem treeOption_eq (e : Option Expr) : treeOption e = e.map tree := by
  cases e <;> rfl

theorem tree_step (e : Expr) (s : TraversalStep) : (e.step s).tree = e.tree.step s.plain := by
  cases e <;> simp [step, Tree.step, tree]

theorem staticKey?_tree (e : Expr) : e.tree.staticKey? = e.staticKey? := by
  unfold staticKey?
  split
  · rfl
  · rfl
  · rename_i hl ht
    unfold Tree.staticKey?
    split
    · rename_i h
      cases e <;> simp_all [tree]
    · rename_i s h
      cases e <;> simp only [tree, treeAll_eq, reduceCtorEq, Tree.template.injEq] at h
      obtain ⟨p, rfl, hp⟩ := List.map_eq_singleton_iff.mp h
      cases p <;> simp_all [tree]
    · rfl

end Expr

/-- What stands between the markers of a template: an expression or a directive. -/
inductive Sequence where
  | interpolation (e : Tree)
  | ifStart (condition : Tree)
  | elseMark
  | endif
  | forStart (keyVar : Option String) (valueVar : String) (collection : Tree)
  | endfor

/-- One part of a template. -/
inductive Piece where
  | text (value : String)
  | sequence (s : Sequence)

def Directive.sequence : Directive → Sequence
  | .ifStart condition => .ifStart condition.tree
  | .elseMark => .elseMark
  | .endif => .endif
  | .forStart k v collection => .forStart k v collection.tree
  | .endfor => .endfor

def TemplatePart.piece : TemplatePart → Piece
  | .text value _ => .text value
  | .interpolation e _ => .sequence (.interpolation e.tree)
  | .directive d _ => .sequence d.sequence

mutual

structure BodyTree where
  attributes : List (String × Tree)
  blocks : List BlockTree

structure BlockTree where
  type : String
  labels : List String
  body : Option BodyTree

end

mutual

/-- The body without its ranges. -/
def Body.tree : Body → BodyTree
  | ⟨attributes, blocks, _, _⟩ =>
    ⟨attributes.map fun a => (a.name, a.expr.tree), treeBlocks blocks⟩

def treeBlocks : List Block → List BlockTree
  | [] => []
  | b :: bs => b.tree :: treeBlocks bs

def Block.tree : Block → BlockTree
  | ⟨type, labels, _, body, _, _, _⟩ => ⟨type, labels, treeBody body⟩

def treeBody : Option Body → Option BodyTree
  | none => none
  | some b => some b.tree

end

@[simp] theorem treeBlocks_eq (bs : List Block) : treeBlocks bs = bs.map Block.tree := by
  induction bs with
  | nil => rfl
  | cons b bs ih => simp [treeBlocks, ih]

@[simp] theorem treeBody_eq (b : Option Body) : treeBody b = b.map Body.tree := by
  cases b <;> rfl

end HclSyntax
