import HclSyntax.Proofs.Completeness
import HclSyntax.Proofs.Print.Canonical

namespace HclSyntax

/-- Whatever tokens a canonical tree is written with, they are read as the tree. -/
theorem printed_is_parsed (e : Tree) (h : e.Canonical .term) (tokens : TokenList)
    (hs : Spelled e.print tokens.body) :
    (parseExpression tokens).2 = [] ∧ (parseExpression tokens).1.tree = e := by
  refine derived_is_accepted tokens e ⟨tokens.body, [], ?_, by simp, ?_⟩
  · rw [List.append_nil]
    exact TokenList.splitLineComments_of_no_comment hs.kind_ne_comment
  · exact h.writes.expression hs

/-- The product `a.b * (1 + c)`. -/
def scaledSum : Tree :=
  .binary .multiply (.scope [.root "a", .attr "b"])
    (.binary .add (.literal (.number (.ofNat 1))) (.scope [.root "c"]))

/-- One way to write the product. -/
def scaledSumTokens : TokenList where
  body := [⟨.identifier, [0x61], default⟩, ⟨.dot, [0x2E], default⟩,
    ⟨.identifier, [0x62], default⟩, ⟨.star, [0x2A], default⟩, ⟨.openParen, [0x28], default⟩,
    ⟨.number, [0x31], default⟩, ⟨.plus, [0x2B], default⟩, ⟨.identifier, [0x63], default⟩,
    ⟨.closeParen, [0x29], default⟩]
  eof := ⟨.eof, [], default⟩
  eof_kind := @rfl _ TokenKind.eof

theorem scaledSum_is_parsed : scaledSum.Canonical .term ∧
    Spelled scaledSum.print scaledSumTokens.body ∧ (parseExpression scaledSumTokens).2 = [] ∧
      (parseExpression scaledSumTokens).1.tree = scaledSum := by
  have hc : scaledSum.Canonical .term :=
    .binary (.path (by decide) (by simp [Step.Writable]))
      (.binary (.number _) (.path (by decide) (by simp)))
  have hs : Spelled scaledSum.print scaledSumTokens.body := by
    refine .cons ⟨rfl, by decide⟩ (by decide) (by decide) ?_
    refine .cons rfl (by decide) (by decide) ?_
    refine .cons ⟨rfl, by decide⟩ (by decide) (by decide) ?_
    refine .cons rfl (by decide) (by decide) ?_
    refine .cons rfl (by decide) (by decide) ?_
    refine .cons ⟨rfl, by cbv⟩ (by decide) (by decide) ?_
    refine .cons rfl (by decide) (by decide) ?_
    refine .cons ⟨rfl, by decide⟩ (by decide) (by decide) ?_
    exact .cons rfl (by decide) (by decide) .nil
  exact ⟨hc, hs, printed_is_parsed scaledSum hc scaledSumTokens hs⟩

end HclSyntax
