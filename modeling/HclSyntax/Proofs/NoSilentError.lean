import HclSyntax.Proofs.Frame
import HclSyntax.Proofs.Known.Body

namespace HclSyntax

/-- Where a run over a token list begins. -/
def TokenList.start (tokens : TokenList) : ParseState := ⟨.ofTokens tokens.splitLineComments, false⟩

namespace Parser

variable {α : Type}

/-- A parser that owns up to its mistakes; `Q` is what an answer with nothing left open is like. -/
structure Honest (p : Parser α) (Q : α → Prop) : Prop where
  /-- A recovery is never taken back. -/
  sticky : Sticky p
  /-- An error is reported, or there was no recovery and the answer is as it should be. -/
  reports (c : Cursor) : (∃ d ∈ (p ⟨c, false⟩).diagnostics, d.severity = .error) ∨
    (p ⟨c, false⟩).state.recovering = false ∧ Q (p ⟨c, false⟩).value

theorem Honest.of_yields {p : Parser α} {Q : α → Prop} (hs : Sticky p) (he : OnlyErrors p)
    (h : ∀ c, p.Yields c fun a _ => Q a) : Honest p Q := by
  refine ⟨hs, fun c => ?_⟩
  rcases hd : (p ⟨c, false⟩).diagnostics with _ | ⟨d, ds⟩
  · exact .inr (yields_iff.mp (h c) hd)
  · have hm : d ∈ (p ⟨c, false⟩).diagnostics := by simp [hd]
    exact .inl ⟨d, by simp, he _ d hm⟩

/-- Without a report there was no recovery, at the end and so at any time before. -/
theorem Honest.silent {p : Parser α} {Q : α → Prop} (h : Honest p Q) {c : Cursor}
    (hd : (p ⟨c, false⟩).diagnostics = []) :
    (p ⟨c, false⟩).state.recovering = false ∧ Q (p ⟨c, false⟩).value := by
  obtain ⟨d, hm, -⟩ | hq := h.reports c
  · simp [hd] at hm
  · exact hq

/-- The productions over a grammar for the expressions and a parser for the bodies inside them. -/
structure HonestProductions (g : Grammar) (nested : Parser Body) : Prop where
  expression : Honest (g .expression) Expr.Known
  operand : Honest (g .operand) Expr.Known
  suffixes (e : Expr) : e.Known → Honest (g (.suffixes e)) Expr.Known
  term : Honest (term g) Expr.Known
  binary : Honest (binary (Parser.operand g)) Expr.Known
  tuple (opening : Token) : Honest (tuple (g .expression) opening) Expr.Known
  object (opening : Token) : Honest (object (g .expression) opening) Expr.Known
  comprehension (opening : Token) : Honest (comprehension (g .expression) opening) Expr.Known
  call (name opening : Token) : Honest (call (g .expression) name opening) Expr.Known
  template (start : SourceRange) (closer : TokenKind) :
    Honest (template (g .expression) start closer) Expr.Known
  directive (opening : Token) :
    Honest (directive (g .expression) opening) fun r => ∀ p ∈ r.1, p.Known
  body : Honest nested Body.Whole
  block (name : Token) : Honest (block nested name) Block.Whole
  value (name equals : Token) (singleLine : Bool) :
    Honest (attributeValue name equals singleLine) fun a => a.expr.Known

theorem honestProductions (depth nesting : Nat) (closer : TokenKind) :
    HonestProductions (grammar depth) (bodyFor nesting closer) := by
  have hg := known_grammar depth
  have hb := whole_bodyFor nesting closer
  have hs := sticky.grammar depth
  have he := onlyErrors.grammar depth
  have hsb := sticky.bodyFor nesting closer
  have heb := onlyErrors.bodyFor nesting closer
  exact {
    expression := .of_yields (hs _) (he _) hg.1
    operand := .of_yields (hs _) (he _) hg.2.1
    suffixes := fun e hk => .of_yields (hs _) (he _) (hg.2.2 e hk)
    term := .of_yields (sticky.term hs) (onlyErrors.term he) (known_term hg)
    binary := .of_yields (sticky.binary (sticky.operand hs))
      (onlyErrors.binary (onlyErrors.operand he)) (known_binary (known_operand hg))
    tuple := fun _ => .of_yields (sticky.tuple (hs _)) (onlyErrors.tuple (he _)) (known_tuple hg.1)
    object := fun _ =>
      .of_yields (sticky.object (hs _)) (onlyErrors.object (he _)) (known_object hg.1)
    comprehension := fun _ => .of_yields (sticky.comprehension (hs _))
      (onlyErrors.comprehension (he _)) (known_comprehension hg.1)
    call := fun name _ =>
      .of_yields (sticky.call (hs _) name) (onlyErrors.call (he _) name) (known_call hg.1 name)
    template := fun _ _ => .of_yields (sticky.template (hs _) _ _)
      (onlyErrors.template (he _) _ _) (known_template hg.1 _ _)
    directive := fun _ => .of_yields (sticky.directive (hs _)) (onlyErrors.directive (he _))
      (known_directive hg.1)
    body := .of_yields hsb heb hb
    block := fun name =>
      .of_yields (sticky.block hsb name) (onlyErrors.block heb name) (whole_block hb name)
    value := fun _ _ _ => .of_yields (sticky.attributeValue _ _ _)
      (onlyErrors.attributeValue _ _ _) (known_attributeValue _ _ _) }

/-- What a silent run over a whole source yields. -/
theorem Yields.run {p : Parser α} {tokens : TokenList} {Q : α → Cursor → Prop}
    (h : p.Yields tokens.start.cursor Q) (hd : (p.run tokens).2 = []) :
    ∃ c, Q (p.run tokens).1 c := ⟨_, (yields_iff.mp h hd).2⟩

theorem Honest.run {p : Parser α} {Q : α → Prop} (h : Honest p Q) (tokens : TokenList)
    (hd : (p.run tokens).2 = []) :
    (p tokens.start).state.recovering = false ∧ Q (p.run tokens).1 := h.silent hd

theorem honest_body (closer : TokenKind) : Honest (body closer) Body.Whole :=
  .of_yields (sticky.body closer) (onlyErrors.body closer) (whole_body closer)

theorem known_wholeExpression : GivesKnown wholeExpression := by
  intro c
  unfold wholeExpression
  rw [yields_withNewlines]
  refine (known_expression _).seq fun e c' h => ?_
  simp only [yields_peek_bind]
  split
  · simp
  · simpa using h

theorem honest_wholeExpression : Honest wholeExpression Expr.Known :=
  .of_yields (sticky.wholeExpression sticky_reportFirst)
    (onlyErrors.wholeExpression onlyErrors_reportFirst) known_wholeExpression

theorem honest_wholeTemplate : Honest wholeTemplate Expr.Known :=
  .of_yields sticky.wholeTemplate onlyErrors.wholeTemplate fun c =>
    (yields_peek_bind _ c _).mpr (known_template known_expression _ _ c)

theorem honest_wholeTraversal :
    Honest (withNewlines false traversal) fun steps => ∀ s ∈ steps, s.Known := by
  refine .of_yields (sticky.withNewlines _ sticky.traversal)
    (onlyErrors.withNewlines _ onlyErrors.traversal) fun c => ?_
  exact (yields_withNewlines _ _ _ _).mpr (known_traversal _)

end Parser

/-- An answer without diagnostics comes from a run without a recovery and has nothing left open:
no unknown value, no block without a body. And every production, at every depth, is honest. -/
theorem no_silent_error (tokens : TokenList) (closer : TokenKind) (depth nesting : Nat) :
    ((parseBody tokens closer).2 = [] →
      (Parser.body closer tokens.start).state.recovering = false ∧
        (parseBody tokens closer).1.Whole) ∧
    ((parseExpression tokens).2 = [] →
      (Parser.wholeExpression tokens.start).state.recovering = false ∧
        (parseExpression tokens).1.Known) ∧
    ((parseTemplate tokens).2 = [] →
      (Parser.wholeTemplate tokens.start).state.recovering = false ∧
        (parseTemplate tokens).1.Known) ∧
    ((parseTraversal tokens).2 = [] →
      (Parser.withNewlines false Parser.traversal tokens.start).state.recovering = false ∧
        ∀ s ∈ (parseTraversal tokens).1, s.Known) ∧
    Parser.HonestProductions (Parser.grammar depth) (Parser.bodyFor nesting closer) :=
  ⟨(Parser.honest_body closer).run tokens, Parser.honest_wholeExpression.run tokens,
    Parser.honest_wholeTemplate.run tokens, Parser.honest_wholeTraversal.run tokens,
    Parser.honestProductions depth nesting closer⟩

/-- The line `b {`, the line `a = 1` and the end of the block, without a newline. -/
def closedBlock : TokenList where
  body := [⟨.identifier, [0x62], default⟩, ⟨.openBrace, [0x7B], default⟩,
    ⟨.newline, [0x0A], default⟩, ⟨.identifier, [0x61], default⟩, ⟨.assign, [0x3D], default⟩,
    ⟨.number, [0x31], default⟩, ⟨.newline, [0x0A], default⟩, ⟨.closeBrace, [0x7D], default⟩]
  eof := ⟨.eof, [], default⟩
  eof_kind := @rfl _ TokenKind.eof

/-- The path `a[0]`, which is a value and a traversal. -/
def indexedPath : TokenList where
  body := [⟨.identifier, [0x61], default⟩, ⟨.openBracket, [0x5B], default⟩,
    ⟨.number, [0x30], default⟩, ⟨.closeBracket, [0x5D], default⟩]
  eof := ⟨.eof, [], default⟩
  eof_kind := @rfl _ TokenKind.eof

/-- The text `x` and behind it the value of `a`. -/
def textAndValue : TokenList where
  body := [⟨.plainChunk, [0x78], default⟩, ⟨.interpolation, [0x24, 0x7B], default⟩,
    ⟨.identifier, [0x61], default⟩, ⟨.sequenceEnd, [0x7D], default⟩]
  eof := ⟨.eof, [], default⟩
  eof_kind := @rfl _ TokenKind.eof

theorem silentRuns_are_whole :
    (parseBody closedBlock .eof).2 = [] ∧ (parseBody closedBlock .eof).1.Whole ∧
    (parseExpression indexedPath).2 = [] ∧ (parseExpression indexedPath).1.Known ∧
    (parseTemplate textAndValue).2 = [] ∧ (parseTemplate textAndValue).1.Known ∧
    (parseTraversal indexedPath).2 = [] ∧ ∀ s ∈ (parseTraversal indexedPath).1, s.Known := by
  have hb : (parseBody closedBlock .eof).2 = [] := by decide +kernel
  have he : (parseExpression indexedPath).2 = [] := by decide +kernel
  have ht : (parseTemplate textAndValue).2 = [] := by decide +kernel
  have hp : (parseTraversal indexedPath).2 = [] := by decide +kernel
  obtain ⟨hbody, -⟩ := no_silent_error closedBlock .eof 0 0
  obtain ⟨-, hexpr, -, htraversal, -⟩ := no_silent_error indexedPath .eof 0 0
  obtain ⟨-, -, htemplate, -⟩ := no_silent_error textAndValue .eof 0 0
  exact ⟨hb, (hbody hb).2, he, (hexpr he).2, ht, (htemplate ht).2, hp, (htraversal hp).2⟩

end HclSyntax
