import HclSyntax.Parse
import HclSyntax.Proofs.Meaning.Body

namespace HclSyntax

namespace TokenList

/-- The last token is no comment. -/
theorem toList_splitLineComments (l : TokenList) : l.splitLineComments.toList =
    l.toList.flatMap fun t => if t.endsWithNewline then t.splitNewline else [t] := by
  have he : l.eof.endsWithNewline = false := by simp [Token.endsWithNewline, l.eof_kind]
  simp [toList, splitLineComments, he]

variable {x : Likeness} {tokens tokens' : TokenList}

/-- The sources are alike in what may be seen of them. -/
structure Alike (x : Likeness) (tokens tokens' : TokenList) : Prop where
  kept : x.Like (tokens.splitLineComments.toList.filter x.keeps)
    (tokens'.splitLineComments.toList.filter x.keeps)
  braces : x.braces = false → ∀ t ∈ tokens.splitLineComments.toList, t.kind ≠ .openBrace

theorem Alike.places (h : Alike x tokens tokens') {m : List Bool}
    (hn : x.joined = true → m.headD true = false) :
    x.Places m ⟨[], tokens.splitLineComments.toList, tokens.splitLineComments.eof, m⟩
      ⟨[], tokens'.splitLineComments.toList, tokens'.splitLineComments.eof, m⟩ := by
  have hended (l : TokenList) : Cursor.Ended ⟨[], l.toList, l.eof, m⟩ := by
    simp [Cursor.Ended, toList, l.eof_kind]
  have hkept (l : TokenList) : l.toList.filter x.keeps = l.body.filter x.keeps ++ [l.eof] := by
    simp [toList, Likeness.keeps, l.eof_kind]
  have heof : x.Like tokens.splitLineComments.eof tokens'.splitLineComments.eof := by
    have hl := h.kept
    rw [hkept, hkept] at hl
    obtain ⟨_, _, heq, -, he⟩ := hl.unconcat
    obtain rfl := List.singleton_inj.mp (List.append_inj' heq rfl).2
    exact he
  exact ⟨rfl, rfl, heof, tokens.splitLineComments.eof_kind, h.kept, .refl none, hended _, hended _,
    hn, h.braces⟩

end TokenList

namespace Parser

variable {x : Likeness} {tokens tokens' : TokenList} {α : Type} [Placed α] {p : Parser α}

theorem Likewise.run_alike (hp : Likewise x p p) (h : tokens.Alike x tokens')
    (hj : x.joined = false) : x.Like (p.run tokens) (p.run tokens') := by
  have hrun := hp (h.places (m := []) fun hx => by simp [hj] at hx) false
  exact hrun.value.pair hrun.diagnostics

/-- Where newlines do not count, they may be left out. -/
theorem Likewise.run_withNewlines_alike (hp : Likewise x p p) (h : tokens.Alike x tokens') :
    x.Like ((Parser.withNewlines false p).run tokens)
      ((Parser.withNewlines false p).run tokens') := by
  have hrun := hp (h.places (m := [false]) fun _ => rfl) false
  exact hrun.value.pair hrun.diagnostics

variable (h : tokens.Alike x tokens')
include h

theorem like_parseExpression (hj : x.joined = true → x.braces = false) :
    x.Like (parseExpression tokens) (parseExpression tokens') :=
  (likewise_expressionToEnd hj).run_withNewlines_alike h

theorem like_parseTraversal : x.Like (parseTraversal tokens) (parseTraversal tokens') :=
  likewise_traversal.run_withNewlines_alike h

theorem like_parseBody (hj : x.joined = false) (closer : TokenKind) :
    x.Like (parseBody tokens closer) (parseBody tokens' closer) :=
  (likewise_body (fun hx => by simp [hj] at hx) closer).run_alike h hj

theorem like_parseTemplate (hj : x.joined = false) :
    x.Like (parseTemplate tokens) (parseTemplate tokens') :=
  (likewise_wholeTemplate fun hx => by simp [hj] at hx).run_alike h hj

end Parser

end HclSyntax
