import HclSyntax.Proofs.Pointing.Collection
import HclSyntax.Proofs.Pointing.Template
import HclSyntax.Proofs.Range.Expression

namespace HclSyntax.Parser

variable {source : SourceRange} {c : Cursor} {t opening : Token}

section
variable {expression operand tighter : Parser Expr}

theorem points_operators (level : Level) (ht : Points source tighter) :
    Points source (operators level tighter) := by
  refine ht.track.bind fun lhs _ => ?_
  dsimp only
  split
  · exact points_pure _
  refine Points.iterate (fun lhs => marks_peekKind_bind fun k => ?_) _
  split
  · exact points_pure _
  refine points_skip.bind fun _ => ht.track.bind fun rhs _ => ?_
  dsimp only
  split <;> exact points_pure _

theorem points_conditional (he : Points source expression) (ho : Points source operand)
    (hf : Framed operand) : Points source (conditional expression operand) := by
  have hbinary : Points source (binary operand) :=
    binary_induction hf ho fun level _ _ _ ht => points_operators level ht
  refine marks_peek_bind fun start hs => hbinary.track.bind fun condition _ => ?_
  dsimp only
  split
  · exact points_pure _
  refine marks_peekKind_bind fun k => ?_
  split
  · exact points_pure _
  refine points_skip.bind fun _ => he.track.bind fun ifTrue _ => ?_
  split
  · exact points_pure _
  refine marks_peek_bind fun colon hc => ?_
  split
  · exact (points_report (hc.range.reportAfter hs.range _)).map _
  refine points_skip.bind fun _ => he.track.bind fun ifFalse _ => ?_
  split <;> exact points_pure _

end

theorem points_splatStep (a : SplatSteps) : Points source (splatStep a) := by
  refine marks_peekKind_bind fun k => ?_
  split
  · exact points_pure _
  refine marks_read_bind fun dot _ => marks_peek_bind fun name hn => ?_
  dsimp only
  split
  · exact points_skip.map _
  · exact points_skip.bind fun _ => (points_numberValue hn).map _
  · exact (points_reportFirst (hn.range.report _)).bind fun _ => points_recover.map _

theorem points_attributeSplat (e : Expr) (dot star : Token) :
    Points source (attributeSplat e dot star) := (Points.iterate points_splatStep _).map _

theorem points_dotSuffix (e : Expr) : Points source (dotSuffix e) := by
  refine marks_read_bind fun dot _ => marks_peek_bind fun next ht => ?_
  split
  · exact points_skip.map _
  · exact points_skip.bind fun _ => points_attributeSplat e dot next
  · exact (points_report (ht.range.report _)).bind fun _ => points_recover.map _

/-- A token that should be `kind` is reported unless something was before. -/
theorem points_closeWith {kind : TokenKind} (ht : t.PartOf source) (m : Problem)
    {α : Type} {p : Parser α} (hp : Points source p) :
    Points source (recovering >>= fun b => if t.kind ≠ kind ∧ !b then
      report m t.range none >>= fun _ => skipPast kind >>= fun _ => p else p) := by
  refine points_recovering.bind fun b => ?_
  split
  · exact (points_report (ht.range.report m)).bind fun _ => (points_skipPast _).bind fun _ => hp
  · exact hp

theorem points_fullSplat {suffixes : Expr → Parser Expr} (hs : ∀ e, Points source (suffixes e))
    (e : Expr) (opening : Token) : Points source (fullSplat suffixes e opening) :=
  marks_read_bind fun _ ht => points_closeWith ht _
    (marks_previousRange.bind fun _ _ => (hs _).map _)

section
variable {expression : Parser Expr} (he : Points source expression)
include he

theorem points_indexKey : Points source (indexKey expression) := by
  refine Marks.withNewlines (he.track.bind fun key _ => ?_) false
  dsimp only
  split
  · exact (points_skipPast _).map _
  · exact marks_read_bind fun _ ht => points_closeWith ht _ (points_pure _)

theorem points_index (collection : Expr) (opening : Token) :
    Points source (index expression collection opening) := by
  refine (points_indexKey he).bind fun key => marks_previousRange.bind fun _ _ => ?_
  dsimp only
  split <;> exact points_pure _

theorem points_bracketSuffix {suffixes : Expr → Parser Expr}
    (hs : ∀ e, Points source (suffixes e)) (e : Expr) :
    Points source (bracketSuffix expression suffixes e) := by
  refine marks_read_bind fun opening _ => marks_peekKind_bind fun k => ?_
  split
  · exact points_skip.bind fun _ => points_fullSplat hs e opening
  · exact points_index he e opening

theorem points_suffixStep {suffixes : Expr → Parser Expr} (hs : ∀ e, Points source (suffixes e))
    (e : Expr) : Points source (suffixStep expression suffixes e) := by
  refine marks_peekKind_bind fun k => ?_
  split
  · exact (points_dotSuffix e).map _
  · exact (points_bracketSuffix he hs e).map _
  · exact points_pure _

end

section
variable {root : Token} (hr : root.PartOf source)
include hr

theorem points_constantKey : Points source (constantKey root) := by
  refine marks_peek_bind fun t ht => ?_
  split
  · exact points_skip.bind fun _ => (points_numberValue ht).map _
  · exact points_skip.bind fun _ => (points_quotedString ht).map _
  · exact (points_report (ht.range.reportAfter hr.range _)).map _

theorem points_constantIndex (ho : opening.PartOf source) :
    Points source (constantIndex root opening) := by
  refine (points_constantKey hr).bind fun key => ?_
  split
  · exact points_pure _
  refine marks_read_bind fun close ht => ?_
  dsimp only
  split
  · exact (points_report (ht.range.reportAfter ho.range _)).map _
  · exact points_pure _

theorem points_traversalStep (steps : Traversal) : Points source (traversalStep root steps) := by
  refine marks_peek_bind fun next hn => ?_
  split
  · exact points_pure _
  · refine points_skip.bind fun _ => marks_read_bind fun name ht => ?_
    split
    · exact points_pure _
    · exact (points_report (ht.range.reportAfter hr.range _)).map _
  · exact points_skip.bind fun _ => (points_constantIndex hr hn).observe.bind fun _ _ =>
      points_pure _
  · exact (points_report (hn.range.reportAfter hr.range _)).map _

end

theorem points_traversal : Points source traversal := by
  refine marks_read_bind fun root hr => ?_
  split
  · exact (points_report (hr.range.report _)).map _
  · exact Points.iterate (points_traversalStep hr) _

theorem points_closeParenthesis (ho : opening.PartOf source) :
    Points source (closeParenthesis opening) := by
  refine marks_peek_bind fun close ht => ?_
  split
  · exact (points_report (ht.range.reportAfter ho.range _)).bind fun _ =>
      points_recover.bind fun _ => points_skip
  · exact points_skip

section
variable {g : Grammar} (hp : ∀ p, Points source (g p))
include hp

theorem points_parenthesized : Points source (parenthesized g) := by
  refine marks_read_bind fun opening ho => Marks.withNewlines ?_ false
  refine (hp .expression).observe.bind fun r _ => ?_
  dsimp only
  split
  · exact (points_skipPast _).map _
  · exact (points_closeParenthesis ho).map _

theorem points_nameOrCall : Points source (nameOrCall g) := by
  refine marks_read_bind fun name hn => marks_peekKind_bind fun k => ?_
  split
  · exact marks_read_bind fun opening ho => points_call (hp _) ho hn
  · exact points_pure _

theorem points_unary (op : UnaryOp) : Points source (unary g op) :=
  marks_read_bind fun _ _ => (hp _).map _

variable (hg : Places g)
include hg

theorem points_term : Points source (term g) := by
  intro c hon
  have hfollows (hk : c.peek.kind ≠ .eof) : c.advance.Follows c.peek := hon.inOrder.follows hk
  refine marksFrom_peek_bind ?_
  split <;> rename_i hk
  · exact points_parenthesized hp hon
  · exact (points_skip.bind fun _ => (points_numberValue hon.peek).map _) hon
  · exact points_nameOrCall hp hon
  · exact marksFrom_skip_bind (points_template (hp _) _ hon.advance)
  · exact marksFrom_skip_bind (points_template (hp _) _ hon.advance)
  · exact points_unary hp _ hon
  · exact points_unary hp _ hon
  · exact marksFrom_skip_bind (pointsFrom_tuple (hp _) hon.peek hg.expression (hg.framed _)
      hon.advance (hfollows (by rw [hk]; decide)))
  · exact marksFrom_skip_bind (pointsFrom_object (hp _) hon.peek hg.expression (hg.framed _)
      hon.advance (hfollows (by rw [hk]; decide)))
  · exact points_invalid hon

theorem points_production (p : Production) : Points source (production g p) := by
  have hsuffixes (e : Expr) : Points source (suffixes g e) :=
    Points.iterate (points_suffixStep (hp _) fun e => hp (.suffixes e)) e
  have hoperand : Points source (operand g) := (points_term hp hg).bind hsuffixes
  cases p with
  | expression => exact points_conditional (hp _) hoperand (framed.operand hg.framed)
  | operand => exact hoperand
  | suffixes e => exact hsuffixes e

end

theorem points_grammar (depth : Nat) (p : Production) : Points source (grammar depth p) := by
  induction depth generalizing p with
  | zero =>
    cases p with
    | suffixes e => exact points_invalid.bind fun _ => points_pure e
    | expression => exact points_invalid
    | operand => exact points_invalid
  | succ depth ih => exact points_production ih (places_grammar depth) p

theorem points_expression : Points source expression := by
  intro c hc b
  have heq : expression ⟨c, b⟩ = grammar (c.remaining + 1) .expression ⟨c, b⟩ := rfl
  rw [heq]
  exact points_grammar _ _ hc b

end HclSyntax.Parser
