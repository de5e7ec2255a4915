import HclSyntax.Proofs.Grouping.Expression
import HclSyntax.Proofs.Outermost
import HclSyntax.Proofs.Unseen

namespace HclSyntax

namespace Parser

variable {D : Prop}

theorem givesGrouped_wholeExpression : GivesGrouped D wholeExpression := by
  refine Cursor.onward_bare.answers_withNewlines
    (Cursor.onward_bare.answers_seq framed.expression givesGrouped_expression fun e h => ?_) false
  refine Cursor.onward_bare.answers_after framed.peek fun next => ?_
  split
  · exact Cursor.onward_bare.answers_after (framed_reportFirst _ _ _) fun _ => answersOn_pure h
  · exact answersOn_pure h

end Parser

theorem TokenList.bare_start {tokens : TokenList} (h : ∀ t ∈ tokens.toList, t.kind ≠ .openParen) :
    (Cursor.ofTokens tokens.splitLineComments).Bare (∃ t ∈ tokens.toList, t.kind = .directive) where
  eof := tokens.eof_kind
  -- splitting adds no more than comments and newlines
  parens t ht := by
    rcases kind_of_mem_splitLineComments ht with hk | hk | hm
    · simp [hk]
    · simp [hk]
    · exact h t hm
  directives t ht hd := by
    rcases kind_of_mem_splitLineComments ht with hk | hk | hm
    · simp [hk] at hd
    · simp [hk] at hd
    · exact ⟨t, hm, hd⟩

/-- The tree of any source without parentheses is grouped by precedence. -/
theorem operators_group_by_precedence (tokens : TokenList)
    (h : ∀ t ∈ tokens.toList, t.kind ≠ .openParen) :
    (parseExpression tokens).1.Grouped (∃ t ∈ tokens.toList, t.kind = .directive) :=
  Parser.givesGrouped_wholeExpression.run (TokenList.bare_start h)

/-- Operators of three levels and a conditional that breaks off: `a-b*c<d?e`. -/
def brokenComparison : TokenList where
  body := [.placed .identifier [0x61] 1 1 0, .placed .minus [0x2D] 1 2 1,
    .placed .identifier [0x62] 1 3 2, .placed .star [0x2A] 1 4 3, .placed .identifier [0x63] 1 5 4,
    .placed .less [0x3C] 1 6 5, .placed .identifier [0x64] 1 7 6, .placed .question [0x3F] 1 8 7,
    .placed .identifier [0x65] 1 9 8]
  eof := .placed .eof [] 1 10 9
  eof_kind := @rfl _ TokenKind.eof

theorem brokenComparison_groups :
    (∀ t ∈ brokenComparison.toList, t.kind ≠ .openParen) ∧
      (parseExpression brokenComparison).2 ≠ [] ∧
      ∀ n, .expr n ∈ (parseExpression brokenComparison).1.walk →
        ∀ x ∈ n.children, x.GroupedHere := by
  have h : ∀ t ∈ brokenComparison.toList, t.kind ≠ .openParen := by decide
  have hnone : ¬∃ t ∈ brokenComparison.toList, t.kind = .directive := by decide
  have hgrouped := operators_group_by_precedence brokenComparison h
  exact ⟨h, by decide +kernel, fun n hn x hx =>
    (hgrouped.2 n hn x hx).resolve_right fun hd => hnone hd.1⟩

/-- A template with a conditional in the header of a directive: `"!{if a?b:c}x!{endif}"`. -/
def conditionalHeader : TokenList where
  body := [.placed .openQuote [0x22] 1 1 0, .placed .directive [0x21, 0x7B] 1 2 1,
    .placed .identifier [0x69, 0x66] 1 4 3, .placed .identifier [0x61] 1 7 6,
    .placed .question [0x3F] 1 8 7, .placed .identifier [0x62] 1 9 8,
    .placed .colon [0x3A] 1 10 9, .placed .identifier [0x63] 1 11 10,
    .placed .sequenceEnd [0x7D] 1 12 11, .placed .quotedChunk [0x78] 1 13 12,
    .placed .directive [0x21, 0x7B] 1 14 13,
    .placed .identifier [0x65, 0x6E, 0x64, 0x69, 0x66] 1 16 15,
    .placed .sequenceEnd [0x7D] 1 21 20, .placed .closeQuote [0x22] 1 22 21]
  eof := .placed .eof [] 1 23 22
  eof_kind := @rfl _ TokenKind.eof

/-- Whether the walk is at a conditional whose condition is one. -/
def ExprStop.asksConditional : ExprStop → Bool
  | .expr (.conditional (.conditional ..) ..) => true
  | _ => false

/-- A source without parentheses and without mistakes, in the tree of which a conditional is the
condition of another. -/
theorem conditionalHeader_nests_conditionals :
    (∀ t ∈ conditionalHeader.toList, t.kind ≠ .openParen) ∧
      (parseExpression conditionalHeader).2 = [] ∧
      ∃ s ∈ (parseExpression conditionalHeader).1.walk, s.asksConditional := by
  refine ⟨by decide, by decide +kernel, ?_⟩
  decide +kernel

end HclSyntax
