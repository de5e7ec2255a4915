import HclSyntax.Proofs.Meaning.Source

namespace HclSyntax

/-- The tokens are of one kind, and their bytes are the same if bytes of that kind are read. -/
def Token.SaysSame (t t' : Token) : Prop :=
  t.kind = t'.kind ∧ (t.kind.isSpelled → t.bytes = t'.bytes)

/-- What a diagnostic says, wherever it points. -/
def Diagnostic.gist (d : Diagnostic) : ErrorCode × Severity × String :=
  (d.code, d.severity, d.summary)

/-- The answers have the same tree, as far as `view` shows it, and say the same is wrong. -/
structure SameMeaning {α β : Type} (view : α → β) (r r' : α × List Diagnostic) : Prop where
  tree : view r.1 = view r'.1
  diagnostics : r.2.map Diagnostic.gist = r'.2.map Diagnostic.gist

namespace Likeness

/-- The same is said, at other places. -/
def moved : Likeness := ⟨False, false, true⟩

namespace Like

variable {x : Likeness} {t t' : Token}

theorem of_saysSame (h : t.SaysSame t') : moved.Like t t' := by
  refine ⟨?_, False.elim⟩
  change (t.kind, if t.kind.isSpelled then t.bytes else []) =
    (t'.kind, if t'.kind.isSpelled then t'.bytes else [])
  rw [← h.1]
  split
  · rw [h.2 ‹_›]
  · rfl

theorem of_forall₂ {l l' : List Token} (h : List.Forall₂ Token.SaysSame l l') :
    moved.Like l l' := by
  induction h with
  | nil => exact refl _
  | cons ht _ ih => exact (of_saysSame ht).cons ih

theorem endsWithNewline (h : x.Like t t') : t.endsWithNewline = t'.endsWithNewline := by
  unfold Token.endsWithNewline
  rw [← h.kind]
  cases hk : t.kind == .comment with
  | true => rw [h.bytes (by rw [beq_iff_eq.mp hk]; rfl)]
  | false => rfl

theorem splitNewline (h : x.Like t t') (hk : t.kind = .comment) :
    x.Like t.splitNewline t'.splitNewline := by
  have hb : t.bytes = t'.bytes := h.bytes (by rw [hk]; rfl)
  refine ⟨?_, fun hx => by rw [h.eq hx]⟩
  change [(TokenKind.comment, t.bytes.dropLast), _] = [(TokenKind.comment, t'.bytes.dropLast), _]
  rw [hb]
  rfl

end Like

end Likeness

/-- Line comments that say the same end alike. -/
theorem TokenList.alike_moved {tokens tokens' : TokenList}
    (h : List.Forall₂ Token.SaysSame tokens.toList tokens'.toList) :
    tokens.Alike .moved tokens' := by
  refine ⟨?_, fun hb => by cases hb⟩
  rw [toList_splitLineComments, toList_splitLineComments]
  refine ((Likeness.Like.of_forall₂ h).flatMap fun t t' ht => ?_).filter
    fun _ _ => Likeness.Like.keeps
  rw [← ht.endsWithNewline]
  split
  · rename_i hends
    refine ht.splitNewline ?_
    simp only [Token.endsWithNewline, Bool.and_eq_true, beq_iff_eq] at hends
    exact hends.1.1
  · exact ht.singleton

/-- Places and punctuation have no influence. Two sources with tokens of the same kinds, in which
those that are read by their bytes have the same ones, have the same trees once ranges are left
out, and diagnostics with the same codes, severities and summaries in the same order. -/
theorem meaning_is_placeless (tokens tokens' : TokenList)
    (h : List.Forall₂ Token.SaysSame tokens.toList tokens'.toList) :
    (∀ closer, SameMeaning Body.tree (parseBody tokens closer) (parseBody tokens' closer)) ∧
    SameMeaning Expr.tree (parseExpression tokens) (parseExpression tokens') ∧
    SameMeaning Expr.tree (parseTemplate tokens) (parseTemplate tokens') ∧
    SameMeaning (List.map TraversalStep.plain) (parseTraversal tokens)
      (parseTraversal tokens') := by
  have ha := TokenList.alike_moved h
  have hbody (closer : TokenKind) := Parser.like_parseBody ha rfl closer
  have hexpression := Parser.like_parseExpression ha fun hx => nomatch hx
  have htemplate := Parser.like_parseTemplate ha rfl
  have htraversal := Parser.like_parseTraversal ha
  exact ⟨fun closer => ⟨(hbody closer).fst.same, (hbody closer).snd.same⟩,
    ⟨hexpression.fst.same, hexpression.snd.same⟩, ⟨htemplate.fst.same, htemplate.snd.same⟩,
    ⟨htraversal.fst.same, htraversal.snd.same⟩⟩

/-- The file `x = {true = 1}`, its tokens at places of their own or all at one place, and with
other bytes for its punctuation. -/
def keyedByTrue (place : UInt32 → SourceRange) (mark : List UInt8) : TokenList where
  body := [⟨.identifier, [0x78], place 0⟩, ⟨.assign, mark, place 2⟩, ⟨.openBrace, mark, place 4⟩,
    ⟨.identifier, Utf8.encode "true", place 5⟩, ⟨.assign, mark, place 10⟩,
    ⟨.number, [0x31], place 12⟩, ⟨.closeBrace, mark, place 13⟩, ⟨.newline, mark, place 14⟩]
  eof := ⟨.eof, [], place 15⟩
  eof_kind := @rfl _ TokenKind.eof

/-- That the key `true` is a name and no constant is told by its place. -/
theorem keyedByTrue_is_placeless :
    List.Forall₂ Token.SaysSame
      (keyedByTrue (fun n => .point "a" ⟨1, n + 1, n⟩) [0x3D]).toList
      (keyedByTrue (fun _ => default) []).toList ∧
    SameMeaning Body.tree
      (parseBody (keyedByTrue (fun n => .point "a" ⟨1, n + 1, n⟩) [0x3D]) .eof)
      (parseBody (keyedByTrue (fun _ => default) []) .eof) := by
  have h : List.Forall₂ Token.SaysSame
      (keyedByTrue (fun n => .point "a" ⟨1, n + 1, n⟩) [0x3D]).toList
      (keyedByTrue (fun _ => default) []).toList := by
    simp [keyedByTrue, TokenList.toList, Token.SaysSame, TokenKind.isSpelled]
  exact ⟨h, (meaning_is_placeless _ _ h).1 .eof⟩

end HclSyntax
