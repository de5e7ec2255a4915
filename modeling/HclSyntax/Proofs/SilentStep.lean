import HclSyntax.Proofs.CleanRun
import HclSyntax.Parser.Body

namespace HclSyntax.Parser

variable {c : Cursor}

theorem yields_numberValue (t : Token) : (numberValue t).Yields c fun v c' =>
    (∃ n, Number.parse t.text = .ok n ∧ v = .number n) ∧ c' = c := by
  unfold numberValue
  split
  · simp_all
  · simp

theorem yields_chunk (t : Token) : (chunk t).Yields c fun text c' =>
    StringChunk.decode t = (text, []) ∧ c' = c := by
  unfold chunk
  rw [yields_tell_bind]
  intro h
  rw [yields_pure]
  exact ⟨Prod.ext rfl h, rfl⟩

theorem yields_closeParenthesis (opening : Token) : (closeParenthesis opening).Yields c fun _ c' =>
    c.peek.kind = .closeParen ∧ c' = c.advance := by
  unfold closeParenthesis
  simp only [yields_peek_bind]
  split
  · simp
  · simp_all

theorem yields_objectSeparator (opening : Token) : (objectSeparator opening).Yields c
    fun more c' => c' = c.advance ∧ (c.peek.kind = .closeBrace ∧ more = false ∨
      (c.peek.kind = .comma ∨ c.peek.kind = .newline) ∧ more = true) := by
  unfold objectSeparator
  simp only [yields_peek_bind]
  split <;> simp_all

theorem yields_reportComprehension_bind {β : Type} (opening : Token) (p : ComprehensionProblem)
    (f : Unit → Parser β) (Q : β → Cursor → Prop) :
    (reportComprehension opening p >>= f).Yields c Q := by
  apply Yields.bind
  simp [reportComprehension]

theorem yields_inKeyword (opening : Token) (key : Option String) (value : String) :
    (inKeyword opening key value).Yields c fun names c' =>
      c.peek.isKeyword "in" ∧ names = some (key, value) ∧ c' = c.advance := by
  unfold inKeyword
  simp only [yields_atKeyword_bind]
  split
  · simp_all
  · exact yields_reportComprehension_bind _ _ _ _

/-- The variables and the keyword after them, with two variables and with one. -/
theorem yields_binders (opening : Token) : (binders opening).Yields c fun names c' =>
    c.peek.kind = .identifier ∧
      ((c.advance.peek.kind = .comma ∧ c.advance.advance.peek.kind = .identifier ∧
        c.advance.advance.advance.peek.isKeyword "in" ∧
        names = some (some c.peek.text, c.advance.advance.peek.text) ∧
        c' = c.advance.advance.advance.advance) ∨
      (c.advance.peek.isKeyword "in" ∧ names = some (none, c.peek.text) ∧
        c' = c.advance.advance)) := by
  unfold binders
  simp only [yields_peekKind_bind]
  split
  · exact yields_reportComprehension_bind _ _ _ _
  rename_i hfirst
  simp only [yields_read_bind, yields_peekKind_bind]
  split
  · refine (yields_inKeyword opening none _).mono fun names c' h => ?_
    exact ⟨by simpa using hfirst, .inr h⟩
  rename_i hcomma
  simp only [yields_skip_bind, yields_peekKind_bind]
  split
  · exact yields_reportComprehension_bind _ _ _ _
  rename_i hsecond
  simp only [yields_read_bind]
  refine (yields_inKeyword opening _ _).mono fun names c' h => ?_
  exact ⟨by simpa using hfirst, .inl ⟨by simpa using hcomma, by simpa using hsecond, h⟩⟩

theorem yields_groupingEllipsis : groupingEllipsis.Yields c fun ellipsis c' =>
    c.peek.kind = .ellipsis ∧ ellipsis = some c.peek ∧ c' = c.advance ∨
      c.peek.kind ≠ .ellipsis ∧ ellipsis = none ∧ c' = c := by
  unfold groupingEllipsis
  simp only [yields_peekKind_bind]
  split <;> simp_all

theorem yields_closeComprehension (opening : Token) : (closeComprehension opening).Yields c
    fun close c' => c.peek.kind = opening.kind.opposite ∧ c' = c.advance ∧
      close = c.advance.previousRange := by
  unfold closeComprehension
  simp only [yields_peekKind_bind]
  split
  · simp_all
  · exact yields_reportComprehension_bind _ _ _ _

/-- An object has a key, and a tuple has neither a key nor groups. -/
theorem yields_checkResult (opening : Token) (key : Option Expr) (value : Expr)
    (ellipsis : Option Token) (whole : SourceRange) :
    (checkResult opening key value ellipsis whole).Yields c fun _ c' =>
      c' = c ∧ (opening.kind = .openBrace ∧ key.isSome ∨
        opening.kind ≠ .openBrace ∧ key = none ∧ ellipsis = none) := by
  unfold checkResult
  split
  · split
    · simp
    · cases key <;> simp_all
  · cases key <;> cases ellipsis <;> simp_all

theorem yields_closeSequence (p : Problem) (start : SourceRange) :
    (closeSequence p start).Yields c fun strip c' =>
      c.peek.kind = .sequenceEnd ∧ strip = c.peek.stripsAfter ∧ c' = c.advance := by
  unfold closeSequence
  simp only [yields_peek_bind]
  split <;> simp_all

theorem yields_endOfLine (name : Token) (problem : TokenKind → Problem) :
    (endOfLine name problem).Yields c fun _ c' =>
      (c.peek.kind = .newline ∨ c.peek.kind = .eof) ∧ c' = c.advance := by
  unfold endOfLine Watch.endOfLine
  simp only [yields_peek_bind]
  split <;> simp_all

theorem yields_closeSingleLine : closeSingleLine.Yields c fun _ c' =>
    c.peek.kind = .closeBrace ∧ c' = c.advance := by
  unfold closeSingleLine
  simp only [yields_peek_bind]
  split
  · simp_all
  · split <;> simp

theorem yields_reportItem_bind {β : Type} (start : SourceRange) (t : Token)
    (f : Unit → Parser β) (Q : β → Cursor → Prop) : (reportItem start t >>= f).Yields c Q := by
  apply Yields.bind
  unfold reportItem
  split <;> simp

theorem yields_reportHeader_bind {β : Type} (name t : Token)
    (f : Unit → Parser β) (Q : β → Cursor → Prop) : (reportHeader name t >>= f).Yields c Q := by
  apply Yields.bind
  unfold reportHeader
  split <;> simp

end HclSyntax.Parser
