import HclSyntax.Proofs.Outermost
import HclSyntax.Proofs.Pointing.Body

namespace HclSyntax

/-- From where the first token begins to where the last one ends. -/
def TokenList.extent (tokens : TokenList) : SourceRange where
  filename := tokens.eof.range.filename
  start := (tokens.toList.headD tokens.eof).range.start
  stop := tokens.eof.range.stop

namespace TokenList

variable {tokens : TokenList}

/-- A comment and the newline in it are together where the comment was. -/
theorem extent_splitLineComments : tokens.splitLineComments.extent = tokens.extent := by
  obtain ⟨body, eof, heof⟩ := tokens
  cases body with
  | nil => rfl
  | cons t body =>
    simp only [extent, splitLineComments, toList, List.flatMap_cons]
    split <;> rfl

/-- Tokens in order lie between the first and the last. -/
theorem Ordered.within (h : tokens.splitLineComments.Ordered) :
    ∀ t ∈ tokens.splitLineComments.toList,
      tokens.extent.lo ≤ t.range.lo ∧ t.range.hi ≤ tokens.extent.hi := by
  obtain ⟨-, hforward, hapart⟩ := h.inOrder
  rw [← extent_splitLineComments]
  change ∀ t ∈ tokens.splitLineComments.toList, t.range.lo ≤ t.range.hi at hforward
  change tokens.splitLineComments.toList.Pairwise _ at hapart
  generalize tokens.splitLineComments = source at *
  intro t ht
  constructor
  · change (source.toList.headD source.eof).range.lo ≤ t.range.lo
    cases hl : source.toList with
    | nil => exact absurd hl source.toList_ne_nil
    | cons u rest =>
      rw [hl] at ht hapart hforward
      obtain rfl | ht := List.mem_cons.mp ht
      · exact Nat.le_refl _
      · exact (hforward u List.mem_cons_self).trans (List.rel_of_pairwise_cons hapart ht)
  · change t.range.hi ≤ source.eof.range.hi
    have heof := hforward source.eof (by simp [toList])
    obtain ht | ht := List.mem_append.mp ht
    · have := (List.pairwise_append.mp hapart).2.2 t ht source.eof List.mem_cons_self
      exact this.trans heof
    · obtain rfl := List.mem_singleton.mp ht
      exact Nat.le_refl _

end TokenList

namespace Parser

variable {source : SourceRange}

theorem points_wholeExpression : Points source wholeExpression := by
  refine Marks.withNewlines (points_expression.bind fun e =>
    marks_peek_bind fun next ht => ?_) false
  split
  · exact (points_reportFirst (ht.range.report _)).map _
  · exact points_pure _

theorem points_wholeTemplate : Points source wholeTemplate :=
  marks_peek_bind fun _ _ => points_template points_expression _

end Parser

/-- Every report is about a part of the source and has it in its context, if that is given and the
report is not about a second definition. -/
theorem diagnostics_point_into_source (tokens : TokenList) (closer : TokenKind)
    (ho : tokens.splitLineComments.Ordered)
    (ht : ∀ t ∈ tokens.splitLineComments.toList, Utf8.Valid t.bytes ∧ t.Exact) :
    (∀ d ∈ (parseBody tokens closer).2, d.PointsInto tokens.extent) ∧
      (∀ d ∈ (parseExpression tokens).2, d.PointsInto tokens.extent) ∧
      (∀ d ∈ (parseTemplate tokens).2, d.PointsInto tokens.extent) ∧
      ∀ d ∈ (parseTraversal tokens).2, d.PointsInto tokens.extent := by
  have hon : tokens.start.cursor.On tokens.extent := by
    refine ⟨ho.inOrder, fun t hm => ?_⟩
    obtain ⟨hfrom, hto⟩ := ho.within t hm
    obtain ⟨hvalid, hexact⟩ := ht t hm
    exact ⟨⟨hfrom, ho.inOrder.forward t hm, hto⟩, hvalid, hexact⟩
  have hrun {α : Type} {p : Parser α} (h : p.Points tokens.extent) :
      ∀ d ∈ (p.run tokens).2, d.PointsInto tokens.extent := (h hon false).1
  exact ⟨hrun (Parser.points_body closer), hrun Parser.points_wholeExpression,
    hrun Parser.points_wholeTemplate, hrun (Parser.points_traversal.withNewlines false)⟩

/-- An escape that is none, and the same name again for a tuple without its comma: `x = "\q"` and
`x = [1 2]` on two lines. -/
def mistakenLines : TokenList where
  body := [.placed .identifier [0x78] 1 1 0, .placed .assign [0x3D] 1 3 2,
    .placed .openQuote [0x22] 1 5 4, .placed .quotedChunk [0x5C, 0x71] 1 6 5,
    .placed .closeQuote [0x22] 1 8 7, .placed .newline [0x0A] 1 9 8,
    .placed .identifier [0x78] 2 1 9, .placed .assign [0x3D] 2 3 11,
    .placed .openBracket [0x5B] 2 5 13, .placed .number [0x31] 2 6 14,
    .placed .number [0x32] 2 8 16, .placed .closeBracket [0x5D] 2 9 17,
    .placed .newline [0x0A] 2 10 18]
  eof := .placed .eof [] 3 1 19
  eof_kind := @rfl _ TokenKind.eof

theorem mistakenLines_are_pointed_at :
    mistakenLines.splitLineComments.Ordered ∧
      (∀ t ∈ mistakenLines.splitLineComments.toList, Utf8.Valid t.bytes ∧ t.Exact) ∧
      (parseBody mistakenLines .eof).2.map (fun d => (d.code, d.subject.lo, d.subject.hi)) =
        [(.invalidEscape, 5, 7), (.missingSeparator, 16, 17), (.attributeRedefined, 9, 10)] ∧
      ∀ d ∈ (parseBody mistakenLines .eof).2, d.PointsInto mistakenLines.extent := by
  have ho : mistakenLines.splitLineComments.Ordered := by decide
  have ht : ∀ t ∈ mistakenLines.splitLineComments.toList, Utf8.Valid t.bytes ∧ t.Exact := by
    decide +kernel
  exact ⟨ho, ht, by decide +kernel, (diagnostics_point_into_source mistakenLines .eof ho ht).1⟩

end HclSyntax
