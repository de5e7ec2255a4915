import HclSyntax.Proofs.Steady
import HclSyntax.Proofs.Termination

namespace HclSyntax

namespace Parser

/-- The productions over a grammar for the expressions and a parser for the bodies inside them. A
recovery before any of them is invisible. -/
structure SteadyProductions (g : Grammar) (nested : Parser Body) : Prop where
  expression : Steady (g .expression)
  operand : Steady (g .operand)
  suffixes (e : Expr) : Steady (g (.suffixes e))
  binary : Steady (binary (Parser.operand g))
  term : Steady (term g)
  suffixStep (e : Expr) :
    Steady (suffixStep (g .expression) (fun each => g (.suffixes each)) e)
  tuple (opening : Token) : Steady (tuple (g .expression) opening)
  object (opening : Token) : Steady (object (g .expression) opening)
  call (name opening : Token) : Steady (call (g .expression) name opening)
  comprehension (opening : Token) : Steady (comprehension (g .expression) opening)
  template (start : SourceRange) (closer : TokenKind) :
    Steady (template (g .expression) start closer)
  interpolation (start : SourceRange) (opening : Token) :
    Steady (interpolation (g .expression) start opening)
  directive (opening : Token) : Steady (directive (g .expression) opening)
  quotedString (opening : Token) : Steady (quotedString opening)
  value (name equals : Token) (singleLine : Bool) : Steady (attributeValue name equals singleLine)
  block (name : Token) : Steady (block nested name)
  item (name : Token) (items : Items) : Steady (item nested name items)
  body (closer : TokenKind) : Steady (bodyWith nested closer)

theorem steadyProductions {g : Grammar} {nested : Parser Body} (hg : ∀ p, Steady (g p))
    (hn : Steady nested) : SteadyProductions g nested where
  expression := hg _
  operand := hg _
  suffixes _ := hg _
  binary := steady.binary (steady.operand hg)
  term := steady.term hg
  suffixStep e := steady.suffixStep (hg _) (fun _ => hg _) e
  tuple _ := steady.tuple (hg _)
  object _ := steady.object (hg _)
  call name _ := steady.call (hg _) name
  comprehension _ := steady.comprehension (hg _)
  template start closer := steady.template (hg _) start closer
  interpolation start _ := steady.interpolation (hg _) start
  directive _ := steady.directive (hg _)
  quotedString _ := steady.quotedString
  value name equals singleLine := steady.attributeValue name equals singleLine
  block name := steady.block hn name
  item name items := steady.item hn name items
  body closer := steady.bodyWith hn closer

end Parser

/-- A production that reports nothing where there was no recovery does the same where there was one:
it gives the same answer, reports nothing and stops at the same place in the same modes. -/
theorem recovery_is_invisible :
    Parser.SteadyProductions Parser.unbounded (Parser.body .closeBrace) ∧
    (∀ depth nesting, Parser.SteadyProductions (Parser.grammar depth)
      (Parser.bodyFor nesting .closeBrace)) ∧
    (∀ closer, Parser.Steady (Parser.body closer)) ∧
    Parser.Steady Parser.wholeExpression ∧ Parser.Steady Parser.wholeTemplate ∧
    Parser.Steady Parser.traversal := by
  have hunbounded (p : Production) : Parser.Steady (Parser.unbounded p) :=
    Parser.steady.bounded fun depth => Parser.steady.grammar depth p
  refine ⟨Parser.steadyProductions hunbounded (Parser.steady.body _), fun depth nesting => ?_,
    Parser.steady.body, Parser.steady.wholeExpression Parser.steady_reportFirst,
    Parser.steady.wholeTemplate, Parser.steady.traversal⟩
  exact Parser.steadyProductions (Parser.steady.grammar depth) (Parser.steady.bodyFor nesting _)

/-- Inside a block, in front of `a = b`, a newline and the brace that ends it. -/
def insideBlock : Cursor where
  passed := []
  rest := [⟨.identifier, [0x61], default⟩, ⟨.assign, [0x3D], default⟩,
    ⟨.identifier, [0x62], default⟩, ⟨.newline, [0x0A], default⟩, ⟨.closeBrace, [0x7D], default⟩,
    ⟨.eof, [], default⟩]
  eof := ⟨.eof, [], default⟩
  modes := []

theorem blockBody_is_same_recovering :
    let run := Parser.body .closeBrace ⟨insideBlock, false⟩
    run.diagnostics = [] ∧ run.state.cursor.peek.kind = .eof ∧
      Parser.body .closeBrace ⟨insideBlock, true⟩ = ⟨run.value, [], ⟨run.state.cursor, true⟩⟩ := by
  intro run
  have hd : run.diagnostics = [] := by decide +kernel
  obtain ⟨-, -, hbody, -⟩ := recovery_is_invisible
  exact ⟨hd, by decide +kernel, (hbody .closeBrace).same insideBlock hd⟩

end HclSyntax
