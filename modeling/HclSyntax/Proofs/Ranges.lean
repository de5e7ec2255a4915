import HclSyntax.Proofs.Outermost
import HclSyntax.Proofs.Range.Body

namespace HclSyntax

/-- Where nothing is missing, the ranges of attributes contain those of their expressions. -/
theorem Body.Nests.contains_exprs {b : Body} (h : b.Nests) (hw : b.Whole) :
    ∀ a ∈ b.allAttributes, a.range.contains a.expr.range := by
  induction h with
  | @mk b ha hb hholds hinner ih =>
    obtain ⟨hknown, hblocks⟩ := Body.whole_iff.mp hw
    intro a hm
    rcases Body.mem_allAttributes.mp hm with hm | ⟨x, hx, y, hy, hm⟩
    · exact (ha a hm).1.whole (hknown a hm)
    · obtain ⟨z, hz, hwhole⟩ := Block.whole_iff.mp (hblocks x hx)
      obtain rfl : y = z := Option.some.inj (hy.symm.trans hz)
      exact ih x hx y hy hwhole a hm

namespace Parser

variable {c : Cursor}

theorem nests_wholeExpression (hc : c.InOrder) :
    Ends wholeExpression c fun e _ => e.Nests := by
  refine Ends.withNewlines ((lays_expression (hc.enter false)).seq fun e c' h =>
    arrives_peek_bind ?_)
  split
  · exact (still_reportFirst _ _ _).seq fun _ => arrives_pure h.nests
  · exact arrives_pure h.nests

theorem nests_wholeTemplate (hc : c.InOrder) : Ends wholeTemplate c fun e _ => e.Nests :=
  arrives_peek_bind ((ends_template lays_expression framed.expression .eof hc (Nat.le_refl _)
    (Nat.le_refl _)).mono fun _ _ h => h.nests)

theorem Ends.run {α : Type} {p : Parser α} {tokens : TokenList} {Q : α → Cursor → Prop}
    (h : Ends p tokens.start.cursor Q) : ∃ c, Q (p.run tokens).1 c :=
  ⟨_, h false fun _ _ => trivial⟩

end Parser

/-- In every tree the ranges of nodes contain those of their parts. -/
theorem ranges_nest (tokens : TokenList) (closer : TokenKind)
    (h : tokens.splitLineComments.Ordered) :
    ((parseBody tokens closer).1.Nests ∧
      ((parseBody tokens closer).2 = [] →
        ∀ a ∈ (parseBody tokens closer).1.allAttributes, a.range.contains a.expr.range)) ∧
    (parseExpression tokens).1.Nests ∧ (parseTemplate tokens).1.Nests := by
  have hc := h.inOrder
  obtain ⟨_, hbody, -⟩ := (Parser.laysBody_body closer _ hc).run
  obtain ⟨_, hexpression⟩ := (Parser.nests_wholeExpression hc).run
  obtain ⟨_, htemplate⟩ := (Parser.nests_wholeTemplate hc).run
  exact ⟨⟨hbody, fun hd => hbody.contains_exprs ((Parser.honest_body closer).run tokens hd).2⟩,
    hexpression, htemplate⟩

/-- A tuple on a line: `x = [1, 2]`. -/
def placedTuple : TokenList where
  body := [.placed .identifier [0x78] 1 1 0, .placed .assign [0x3D] 1 3 2,
    .placed .openBracket [0x5B] 1 5 4, .placed .number [0x31] 1 6 5, .placed .comma [0x2C] 1 7 6,
    .placed .number [0x32] 1 9 8, .placed .closeBracket [0x5D] 1 10 9,
    .placed .newline [0x0A] 1 11 10]
  eof := .placed .eof [] 2 1 11
  eof_kind := @rfl _ TokenKind.eof

theorem placedTuple_ranges_nest :
    placedTuple.splitLineComments.Ordered ∧ (parseBody placedTuple .eof).2 = [] ∧
      (parseBody placedTuple .eof).1.Nests ∧
      ∃ a ∈ (parseBody placedTuple .eof).1.allAttributes, a.range.contains a.expr.range := by
  have h : placedTuple.splitLineComments.Ordered := by decide
  have hd : (parseBody placedTuple .eof).2 = [] := by decide +kernel
  obtain ⟨⟨hnests, hcontains⟩, -, -⟩ := ranges_nest placedTuple .eof h
  have hsome : (parseBody placedTuple .eof).1.allAttributes ≠ [] := by decide +kernel
  obtain ⟨a, ha⟩ := List.exists_mem_of_ne_nil _ hsome
  exact ⟨h, hd, hnests, a, ha, hcontains hd a ha⟩

end HclSyntax
