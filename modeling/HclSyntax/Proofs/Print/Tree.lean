import HclSyntax.Proofs.Print.Lexeme

namespace HclSyntax

def BinaryOp.kind : BinaryOp → TokenKind
  | .or => .or
  | .and => .and
  | .equal => .equal
  | .notEqual => .notEqual
  | .greater => .greater
  | .greaterEqual => .greaterEqual
  | .less => .less
  | .lessEqual => .lessEqual
  | .add => .plus
  | .subtract => .minus
  | .multiply => .star
  | .divide => .slash
  | .modulo => .percent

/-- The place of the operator among the levels, the loosest first. -/
def BinaryOp.level : BinaryOp → Nat
  | .or => 0
  | .and => 1
  | .equal | .notEqual => 2
  | .greater | .greaterEqual | .less | .lessEqual => 3
  | .add | .subtract => 4
  | .multiply | .divide | .modulo => 5

namespace Lexeme

def parens (ls : List Lexeme) : List Lexeme :=
  .mark .openParen :: ls ++ [.mark .closeParen]

/-- The lists with commas between them. -/
def separated : List (List Lexeme) → List Lexeme
  | [] => []
  | [ls] => ls
  | ls :: ls' :: rest => ls ++ .mark .comma :: separated (ls' :: rest)

/-- A string between its quotes, without a chunk if it is empty. -/
def quoted (text : String) : List Lexeme :=
  .mark .openQuote :: (if text = "" then [] else [.chunk text]) ++ [.mark .closeQuote]

end Lexeme

def Value.print : Value → List Lexeme
  | .null => [.name "null"]
  | .bool true => [.name "true"]
  | .bool false => [.name "false"]
  | .number n => [.number n]
  | .string s => Lexeme.quoted s
  | .unknown _ => []

def Step.print : Step → List Lexeme
  | .root name => [.name name]
  | .attr name => [.mark .dot, .name name]
  | .index v => .mark .openBracket :: v.print ++ [.mark .closeBracket]

namespace Tree

/-- How closely a tree holds together: a conditional least, then operators by their level. Behind a
splat nothing can be added that would not belong to it. -/
def grade : Tree → Nat
  | conditional .. => 0
  | binary op _ _ => op.level + 1
  | unary .. => 7
  | splat .. => 8
  | _ => 9

/-- A key, which is a name for itself, or an expression that must not be taken for one. -/
def printKey (key : Tree) (printed : List Lexeme) : List Lexeme :=
  match key with
  | literal (.string s) => [.name s]
  | _ => if key.isName then Lexeme.parens printed else printed

/-- A part of a template: a chunk, or an expression between markers. -/
def printPart (part : Tree) (printed : List Lexeme) : List Lexeme :=
  match part with
  | literal (.string s) => [.chunk s]
  | _ => .interpolation :: printed ++ [.sequenceEnd]

/-- The variables of a comprehension and what follows them. -/
def printBinders (keyVar : Option String) (valueVar : String) : List Lexeme :=
  match keyVar with
  | none => [.name valueVar, .keyword "in"]
  | some k => [.name k, .mark .comma, .name valueVar, .keyword "in"]

/-- A part that must hold together at least as closely as `grade`. -/
def wrapped (grade : Nat) (t : Tree) (printed : List Lexeme) : List Lexeme :=
  if grade ≤ t.grade then printed else Lexeme.parens printed

mutual

def print : Tree → List Lexeme
  | literal v => v.print
  | templateWrap inner =>
    .mark .openQuote :: .interpolation :: inner.print ++ [.sequenceEnd, .mark .closeQuote]
  | template [literal (.string s)] => Lexeme.quoted s
  | template parts => .mark .openQuote :: (printParts parts).flatten ++ [.mark .closeQuote]
  | templateJoin _ => []
  | tuple items => .mark .openBracket :: Lexeme.separated (printAll items) ++ [.mark .closeBracket]
  | object items => .mark .openBrace :: Lexeme.separated (printItems items) ++ [.mark .closeBrace]
  | conditional c a b =>
    wrapped 1 c c.print ++ .mark .question :: a.print ++ .mark .colon :: b.print
  | binary op l r => wrapped (op.level + 1) l l.print ++ .mark op.kind ::
    wrapped (op.level + 2) r r.print
  | unary op e => .mark op.kind :: wrapped 7 e e.print
  | scope steps => steps.flatMap Step.print
  | relative e steps => wrapped 9 e e.print ++ steps.flatMap Step.print
  | index e key => wrapped 9 e e.print ++ .mark .openBracket :: key.print ++ [.mark .closeBracket]
  | splat e each =>
    wrapped 9 e e.print ++ [.mark .openBracket, .mark .star, .mark .closeBracket] ++ each.print
  | element => []
  | call f args expand => .name f :: .mark .openParen :: Lexeme.separated (printAll args) ++
    (if expand then [.mark .ellipsis] else []) ++ [.mark .closeParen]
  | comprehension k v c none value cond _ =>
    .mark .openBracket :: .keyword "for" :: printBinders k v ++ c.print ++ .mark .colon ::
      value.print ++ printFilter cond ++ [.mark .closeBracket]
  | comprehension k v c (some key) value cond group =>
    .mark .openBrace :: .keyword "for" :: printBinders k v ++ c.print ++ .mark .colon ::
      key.print ++ .mark .fatArrow :: value.print ++ (if group then [.mark .ellipsis] else []) ++
      printFilter cond ++ [.mark .closeBrace]

def printAll : List Tree → List (List Lexeme)
  | [] => []
  | e :: es => e.print :: printAll es

def printItems : List (Tree × Tree) → List (List Lexeme)
  | [] => []
  | item :: items => printItem item :: printItems items

def printItem : Tree × Tree → List Lexeme
  | (key, value) => printKey key key.print ++ .mark .assign :: value.print

def printParts : List Tree → List (List Lexeme)
  | [] => []
  | p :: ps => printPart p p.print :: printParts ps

def printFilter : Option Tree → List Lexeme
  | none => []
  | some c => .keyword "if" :: c.print

end

@[simp] theorem printAll_eq (es : List Tree) : printAll es = es.map print := by
  induction es with
  | nil => rfl
  | cons e es ih => rw [printAll, ih, List.map_cons]

@[simp] theorem printItems_eq (items : List (Tree × Tree)) : printItems items =
    items.map fun i => printKey i.1 i.1.print ++ .mark .assign :: i.2.print := by
  induction items with
  | nil => rfl
  | cons i items ih =>
    obtain ⟨key, value⟩ := i
    rw [printItems, printItem, ih, List.map_cons]

@[simp] theorem printParts_eq (ps : List Tree) :
    printParts ps = ps.map fun p => printPart p p.print := by
  induction ps with
  | nil => rfl
  | cons p ps ih => rw [printParts, ih, List.map_cons]

theorem print_template {parts : List Tree} (h : ∀ s, parts ≠ [literal (.string s)]) :
    (template parts).print = .mark .openQuote :: (parts.map fun p => p.printPart p.print).flatten ++
      [.mark .closeQuote] := by
  rw [print, printParts_eq]
  exact h

end Tree

/-- A constant that can be written as a key. -/
def Value.Writable : Value → Prop
  | .string s => PlainText s
  | .unknown _ => False
  | _ => True

/-- A step behind the first one of a path. -/
def Step.Writable : Step → Prop
  | .root _ => False
  | .attr _ => True
  | .index v => v.Writable

/-- What the suffixes of an expression start at: a term, or the element at hand in a splat. -/
inductive Root where
  | term | element
  deriving DecidableEq

namespace Tree

/-- A path, to which further steps are added. -/
def isPath : Tree → Bool
  | scope _ | relative _ _ => true
  | _ => false

def isText : Tree → Bool
  | literal (.string _) => true
  | _ => false

/-- The trees in the normal form of the parser, for whatever their suffixes start at. -/
inductive Canonical : Root → Tree → Prop
  | null : Canonical .term (literal .null)
  | bool (b : Bool) : Canonical .term (literal (.bool b))
  | number (n : Number) : Canonical .term (literal (.number n))
  /-- The names of constants are no variables, and the keyword would begin a comprehension. -/
  | path {name : String} {steps : List Step} (hn : name ∉ ["true", "false", "null", "for"])
    (hs : ∀ s ∈ steps, s.Writable) : Canonical .term (scope (.root name :: steps))
  | element : Canonical .element .element
  /-- Steps gather in one path. -/
  | relative {root : Root} {e : Tree} {steps : List Step} (h : Canonical root e)
    (hp : e.isPath = false) (hroot : root = .element → e.grade = 9) (hne : steps ≠ [])
    (hs : ∀ s ∈ steps, s.Writable) : Canonical root (relative e steps)
  /-- An index by a constant is a step. -/
  | index {root : Root} {e key : Tree} (h : Canonical root e) (hroot : root = .element → e.grade = 9)
    (hk : Canonical .term key) (hv : key.staticKey? = none) : Canonical root (index e key)
  /-- Only in a splat there is an element at hand. -/
  | splat {root : Root} {e each : Tree} (h : Canonical root e)
    (hroot : root = .element → e.grade = 9) (heach : Canonical .element each) :
    Canonical root (splat e each)
  | unary {op : UnaryOp} {e : Tree} (h : Canonical .term e) : Canonical .term (unary op e)
  | binary {op : BinaryOp} {l r : Tree} (hl : Canonical .term l) (hr : Canonical .term r) :
    Canonical .term (binary op l r)
  | conditional {c a b : Tree} (hc : Canonical .term c) (ha : Canonical .term a)
    (hb : Canonical .term b) : Canonical .term (conditional c a b)
  /-- There must be a last argument to be expanded. -/
  | call {f : String} {args : List Tree} {expand : Bool} (hf : f ≠ "for")
    (hargs : ∀ e ∈ args, Canonical .term e) (hne : expand → args ≠ []) :
    Canonical .term (call f args expand)
  | tuple {items : List Tree} (h : ∀ e ∈ items, Canonical .term e) : Canonical .term (tuple items)
  /-- A key is an expression or a string, which is written as a name. -/
  | object {items : List (Tree × Tree)} (hname : ∀ i ∈ items, i.1 ≠ literal (.string "for"))
    (hk : ∀ i ∈ items, i.1.isText = false → Canonical .term i.1)
    (hv : ∀ i ∈ items, Canonical .term i.2) : Canonical .term (object items)
  | tupleFor {k : Option String} {v : String} {c value : Tree} {cond : Option Tree}
    (hc : Canonical .term c) (hv : Canonical .term value)
    (hcond : ∀ e ∈ cond, Canonical .term e) :
    Canonical .term (comprehension k v c none value cond false)
  | objectFor {k : Option String} {v : String} {c key value : Tree} {cond : Option Tree}
    {group : Bool} (hc : Canonical .term c) (hk : Canonical .term key)
    (hv : Canonical .term value) (hcond : ∀ e ∈ cond, Canonical .term e) :
    Canonical .term (comprehension k v c (some key) value cond group)
  /-- A template that is one interpolation keeps its value. -/
  | templateWrap {inner : Tree} (h : Canonical .term inner) : Canonical .term (templateWrap inner)
  | template {parts : List Tree} (hne : parts ≠ [])
    (hwrap : ∀ p, parts = [p] → p.isText) (htext : ∀ s, literal (.string s) ∈ parts → PlainText s)
    (h : ∀ p ∈ parts, p.isText = false → Canonical .term p) : Canonical .term (template parts)

end Tree

end HclSyntax
