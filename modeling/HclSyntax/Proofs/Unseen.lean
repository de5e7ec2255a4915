import HclSyntax.Proofs.Meaning.Source

namespace HclSyntax

namespace Token

/-- A comment from `#` or `//` to the end of its line. -/
def IsLineComment (t : Token) : Prop :=
  t.kind = .comment ∧ ∃ marker ∈ [[0x23], [0x2F, 0x2F]], ∃ text, t.bytes = marker ++ text ++ [0x0A]

/-- The newline that a line comment ends with: behind as many columns as the comment has characters
in front of it, and one byte wide. -/
def finalNewline (comment : Token) : Token where
  kind := .newline
  bytes := [0x0A]
  range :=
    { filename := comment.range.filename
      start := ⟨comment.range.start.line,
        comment.range.start.column + UInt32.ofNat (Utf8.decode comment.bytes.dropLast).length,
        comment.range.stop.byte - 1⟩
      stop := comment.range.stop }

theorem endsWithNewline_iff {t : Token} : t.endsWithNewline ↔ t.IsLineComment := by
  have hcut (marker : List UInt8) (h : marker.getLast? ≠ some 0x0A) :
      marker <+: t.bytes ∧ t.bytes.getLast? = some 0x0A ↔
        ∃ text, t.bytes = marker ++ text ++ [0x0A] := by
    constructor
    · rintro ⟨⟨rest, hrest⟩, hlast⟩
      rw [← hrest, List.getLast?_append] at hlast
      have hne : rest ≠ [] := by
        rintro rfl
        exact h hlast
      rw [List.getLast?_eq_some_getLast hne, Option.some_or] at hlast
      refine ⟨rest.dropLast, ?_⟩
      rw [← hrest, List.append_assoc, ← Option.some_inj.mp hlast, List.dropLast_append_getLast]
    · rintro ⟨text, htext⟩
      rw [htext, List.append_assoc]
      exact ⟨List.prefix_append _ _, by simp⟩
  simp only [endsWithNewline, IsLineComment, Bool.and_eq_true, Bool.or_eq_true, beq_iff_eq,
    List.isPrefixOf_iff_prefix, List.mem_cons, List.not_mem_nil, or_false, exists_eq_or_imp,
    exists_eq_left]
  rw [← hcut [0x23] (by decide), ← hcut [0x2F, 0x2F] (by decide)]
  tauto

end Token

namespace TokenList

/-- The list with line comments split and then no comments. -/
def withoutComments (l : TokenList) : TokenList :=
  { l with body := l.splitLineComments.body.filter (·.kind != .comment) }

def withoutNewlines (l : TokenList) : TokenList :=
  { l with body := l.body.filter (·.kind != .newline) }

/-- The sources have the same answers, whatever they are read as. -/
structure SameAnswers (l l' : TokenList) : Prop where
  body (closer : TokenKind) : parseBody l closer = parseBody l' closer
  expression : parseExpression l = parseExpression l'
  template : parseTemplate l = parseTemplate l'
  traversal : parseTraversal l = parseTraversal l'

variable {l l' : TokenList}

theorem SameAnswers.trans {l'' : TokenList} (h : SameAnswers l l') (h' : SameAnswers l' l'') :
    SameAnswers l l'' :=
  ⟨fun closer => (h.body closer).trans (h'.body closer), h.expression.trans h'.expression,
    h.template.trans h'.template, h.traversal.trans h'.traversal⟩

theorem SameAnswers.symm (h : SameAnswers l l') : SameAnswers l' l :=
  ⟨fun closer => (h.body closer).symm, h.expression.symm, h.template.symm, h.traversal.symm⟩

end TokenList

namespace Likeness

/-- The same, but for what is not seen: comments, and newlines where lines are joined. -/
def unseen (joined braces : Bool) : Likeness := ⟨True, joined, braces⟩

end Likeness

namespace TokenList

open Likeness

variable {l l' : TokenList}

theorem kind_of_mem_splitLineComments {t : Token} (h : t ∈ l.splitLineComments.toList) :
    t.kind = .comment ∨ t.kind = .newline ∨ t ∈ l.toList := by
  rw [toList_splitLineComments] at h
  obtain ⟨u, hu, ht⟩ := List.mem_flatMap.mp h
  split at ht
  · rcases List.mem_pair.mp ht with rfl | rfl
    · exact .inl rfl
    · exact .inr (.inl rfl)
  · exact .inr (.inr (List.mem_singleton.mp ht ▸ hu))

/-- Splitting adds no more than comments and newlines, and takes no more. -/
theorem filter_splitLineComments {f : Token → Bool}
    (hf : ∀ t, t.kind = .comment ∨ t.kind = .newline → f t = false) (l : TokenList) :
    l.splitLineComments.toList.filter f = l.toList.filter f := by
  have hone (t : Token) :
      (if t.endsWithNewline then t.splitNewline else [t]).filter f = [t].filter f := by
    split
    · rename_i h
      simp only [Token.endsWithNewline, Bool.and_eq_true, beq_iff_eq] at h
      simp [Token.splitNewline, hf, h.1.1]
    · rfl
  rw [toList_splitLineComments]
  induction l.toList with
  | nil => rfl
  | cons t ts ih => rw [List.flatMap_cons, List.filter_append, ih, hone, ← List.filter_append]; rfl

theorem toList_withoutComments (l : TokenList) :
    l.withoutComments.toList = l.splitLineComments.toList.filter (·.kind != .comment) := by
  simp [toList, withoutComments, splitLineComments, l.eof_kind]

theorem sameAnswers_withoutComments (l : TokenList) : SameAnswers l l.withoutComments := by
  have hsplit : l.withoutComments.splitLineComments.toList = l.withoutComments.toList :=
    congrArg (· ++ [l.eof]) <| splitLineComments_of_no_comment fun t ht => by
      simpa using (List.mem_filter.mp ht).2
  have ha : l.Alike (unseen false true) l.withoutComments := by
    refine ⟨?_, fun hb => absurd hb (by decide)⟩
    have hkeeps (t : Token) (_ : t ∈ l.splitLineComments.toList) :
        ((unseen false true).keeps t && t.kind != .comment) = (unseen false true).keeps t := by
      simp [keeps, unseen]
    rw [hsplit, toList_withoutComments, List.filter_filter, List.filter_congr hkeeps]
    exact .refl _
  have hj : (unseen false true).joined = true → (unseen false true).braces = false :=
    fun h => absurd h (by decide)
  exact ⟨fun closer => (Parser.like_parseBody ha rfl closer).eq trivial,
    (Parser.like_parseExpression ha hj).eq trivial, (Parser.like_parseTemplate ha rfl).eq trivial,
    (Parser.like_parseTraversal ha).eq trivial⟩

/-- Lists that are the same without comments have the same answers. -/
theorem sameAnswers_of_withoutComments (h : l.withoutComments = l'.withoutComments) :
    SameAnswers l l' :=
  (sameAnswers_withoutComments l).trans (h ▸ (sameAnswers_withoutComments l').symm)

theorem alike_withoutNewlines (l : TokenList) (braces : Bool)
    (hb : braces = false → ∀ t ∈ l.toList, t.kind ≠ .openBrace) :
    l.Alike (unseen true braces) l.withoutNewlines := by
  have hkeeps (t : Token) (h : t.kind = .comment ∨ t.kind = .newline) :
      (unseen true braces).keeps t = false := by
    rcases h with h | h <;> simp [keeps, unseen, h]
  refine ⟨?_, fun hx t ht => ?_⟩
  · rw [filter_splitLineComments hkeeps, filter_splitLineComments hkeeps]
    have hkept : l.toList.filter (unseen true braces).keeps =
        l.withoutNewlines.toList.filter (unseen true braces).keeps := by
      simp only [toList, withoutNewlines, List.filter_append, List.filter_filter]
      refine congrArg₂ _ (List.filter_congr fun t _ => ?_) rfl
      simp [keeps, unseen]
    rw [hkept]
    exact .refl _
  · rcases kind_of_mem_splitLineComments ht with hk | hk | hm
    · simp [hk]
    · simp [hk]
    · exact hb hx t hm

variable {pre post : List Token} {t : Token}

theorem endsWithNewline_eq_false (h : t.kind ≠ .comment) : t.endsWithNewline = false := by
  simp [Token.endsWithNewline, h]

theorem withoutComments_of_comment (hk : t.kind = .comment) (h : ¬t.IsLineComment) :
    ({ l with body := pre ++ t :: post } : TokenList).withoutComments =
      ({ l with body := pre ++ post } : TokenList).withoutComments := by
  rw [← Token.endsWithNewline_iff, Bool.not_eq_true] at h
  simp [withoutComments, splitLineComments, h, hk]

theorem withoutComments_of_lineComment (h : t.IsLineComment) :
    ({ l with body := pre ++ t :: post } : TokenList).withoutComments =
      ({ l with body := pre ++ t.finalNewline :: post } : TokenList).withoutComments := by
  rw [← Token.endsWithNewline_iff] at h
  simp [withoutComments, splitLineComments, h, Token.splitNewline, Token.finalNewline,
    endsWithNewline_eq_false]

end TokenList

open TokenList in
/-- Tokens that are skipped are invisible. A source has the same answers, ranges included, as its
tokens without comments, line comments having been split. So it has with a block comment more
anywhere before its end, and with a line comment in place of the newline that ends it. A traversal
has the same answer without newlines, and so has an expression without braces. -/
theorem skipped_tokens_are_invisible (tokens : TokenList) :
    SameAnswers tokens tokens.withoutComments ∧
    (∀ pre post comment, tokens.body = pre ++ post → comment.kind = .comment →
      ¬comment.IsLineComment →
      SameAnswers tokens { tokens with body := pre ++ comment :: post }) ∧
    (∀ pre post comment, tokens.body = pre ++ comment :: post → comment.IsLineComment →
      SameAnswers tokens { tokens with body := pre ++ comment.finalNewline :: post }) ∧
    parseTraversal tokens = parseTraversal tokens.withoutNewlines ∧
    ((∀ t ∈ tokens.toList, t.kind ≠ .openBrace) →
      parseExpression tokens = parseExpression tokens.withoutNewlines) := by
  refine ⟨sameAnswers_withoutComments tokens, fun pre post comment hb hk he => ?_,
    fun pre post comment hb he => ?_, ?_, fun hb => ?_⟩
  · refine sameAnswers_of_withoutComments ?_
    rw [withoutComments_of_comment hk he, ← hb]
  · refine sameAnswers_of_withoutComments ?_
    rw [← withoutComments_of_lineComment he, ← hb]
  · exact (Parser.like_parseTraversal (alike_withoutNewlines tokens true nofun)).eq trivial
  · exact (Parser.like_parseExpression (alike_withoutNewlines tokens false fun _ => hb)
      fun _ => rfl).eq trivial

/-- The comment `#` with its newline. -/
def lineComment : Token := ⟨.comment, [0x23, 0x0A], ⟨"a", ⟨1, 2, 1⟩, ⟨2, 1, 3⟩⟩⟩

/-- The comment `/**/`. -/
def blockComment : Token := ⟨.comment, [0x2F, 0x2A, 0x2A, 0x2F], default⟩

/-- The index `a[0]`, with a comment and a newline after the name. -/
def commentedIndex : TokenList where
  body := [⟨.identifier, [0x61], .point "a" ⟨1, 1, 0⟩⟩, lineComment,
    ⟨.newline, [0x0A], .point "a" ⟨2, 1, 3⟩⟩, ⟨.openBracket, [0x5B], .point "a" ⟨3, 1, 4⟩⟩,
    ⟨.number, [0x30], .point "a" ⟨3, 2, 5⟩⟩, ⟨.closeBracket, [0x5D], .point "a" ⟨3, 3, 6⟩⟩]
  eof := ⟨.eof, [], .point "a" ⟨3, 4, 7⟩⟩
  eof_kind := @rfl _ TokenKind.eof

open TokenList in
theorem commentedIndex_is_bare :
    (blockComment.kind = .comment ∧ ¬blockComment.IsLineComment ∧
      SameAnswers commentedIndex
        { commentedIndex with body := blockComment :: commentedIndex.body }) ∧
    (lineComment.IsLineComment ∧
      SameAnswers commentedIndex
        { commentedIndex with
          body := commentedIndex.body.take 1 ++
            ⟨.newline, [0x0A], ⟨"a", ⟨1, 3, 2⟩, ⟨2, 1, 3⟩⟩⟩ :: commentedIndex.body.drop 2 }) ∧
    (∀ t ∈ commentedIndex.toList, t.kind ≠ .openBrace) ∧
    parseExpression commentedIndex = parseExpression commentedIndex.withoutNewlines := by
  obtain ⟨-, hblock, hline, -, hexpression⟩ := skipped_tokens_are_invisible commentedIndex
  have hb : ∀ t ∈ commentedIndex.toList, t.kind ≠ .openBrace := by decide
  have hends : ¬blockComment.IsLineComment := by
    rw [← Token.endsWithNewline_iff]
    decide
  have hl : lineComment.IsLineComment := ⟨rfl, [0x23], by simp, [], rfl⟩
  have hnewline : lineComment.finalNewline = ⟨.newline, [0x0A], ⟨"a", ⟨1, 3, 2⟩, ⟨2, 1, 3⟩⟩⟩ := by
    decide +kernel
  exact ⟨⟨rfl, hends, hblock [] _ _ rfl rfl hends⟩, ⟨hl, hnewline ▸ hline _ _ _ rfl hl⟩, hb,
    hexpression hb⟩

end HclSyntax
