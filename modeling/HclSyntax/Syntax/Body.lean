import HclSyntax.Syntax.Expr

namespace HclSyntax

structure Attribute where
  name : String
  expr : Expr
  range : SourceRange
  nameRange : SourceRange
  equalsRange : SourceRange
  deriving Repr, Inhabited

mutual

structure Body where
  /-- In the order of their definition, one for each name. -/
  attributes : List Attribute
  blocks : List Block
  range : SourceRange
  /-- The empty range where the next item would go. -/
  endRange : SourceRange

structure Block where
  type : String
  labels : List String
  labelRanges : List SourceRange
  /-- None if the header could not be read as far as the body. -/
  body : Option Body
  typeRange : SourceRange
  openRange : SourceRange
  closeRange : SourceRange

end

namespace Body

def empty (range : SourceRange) : Body := ⟨[], [], range, range.endPoint⟩

instance : Inhabited Body := ⟨empty default⟩

def attribute? (b : Body) (name : String) : Option Attribute :=
  b.attributes.find? (·.name == name)

def blocksOfType (b : Body) (type : String) : List Block := b.blocks.filter (·.type == type)

/-- The attributes as they stand in the file, by the start of their names. -/
def sortedAttributes (b : Body) : List Attribute :=
  b.attributes.mergeSort fun x y => x.nameRange.start.byte ≤ y.nameRange.start.byte

end Body

namespace Block

instance : Inhabited Block := ⟨⟨"", [], [], none, default, default, default⟩⟩

def range (b : Block) : SourceRange := .between b.typeRange b.closeRange

end Block

end HclSyntax
