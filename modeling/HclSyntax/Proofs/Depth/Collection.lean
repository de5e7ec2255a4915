import HclSyntax.Proofs.Depth.Run

namespace HclSyntax.Parser

variable {src : TokenList} {opening : Token} {e : Parser Expr}

theorem arrives_inKeyword {c : Cursor} {outer : List TokenKind} (key : Option String)
    (value : String) (h : c.AtDepth src outer) :
    Arrives src.harmless (inKeyword opening key value) c fun names c' =>
      if names.isSome then c'.AtOperand src outer else c'.AtDepth src outer := by
  refine arrives_atKeyword_bind fun b hb => ?_
  split
  · rename_i hk
    exact arrives_skip_bind (arrives_pure (.keyword h (hb hk) (.inl rfl)))
  · exact (still_reportComprehension _ _).seq fun _ => arrives_pure h

/-- The collection begins where the variables have been read. -/
theorem arrives_binders {c : Cursor} {outer : List TokenKind} (h : c.AtDepth src outer) :
    Arrives src.harmless (binders opening) c fun names c' =>
      if names.isSome then c'.AtOperand src outer else c'.AtDepth src outer := by
  refine arrives_peekKind_bind ?_
  split
  · exact (still_reportComprehension _ _).seq fun _ => arrives_pure h
  rename_i hk
  have h := h.passed (Decidable.of_not_not hk) rfl
  refine arrives_read_bind (arrives_peekKind_bind ?_)
  split
  · exact arrives_inKeyword _ _ h
  rename_i hk
  have h := h.passed (Decidable.of_not_not hk) rfl
  refine arrives_skip_bind (arrives_peekKind_bind ?_)
  split
  · exact (still_reportComprehension _ _).seq fun _ => arrives_pure h
  rename_i hk
  have h := h.passed (Decidable.of_not_not hk) rfl
  exact arrives_read_bind (arrives_inKeyword _ _ h)

theorem keeps_groupingEllipsis : Keeps src groupingEllipsis := by
  intro c outer h
  refine arrives_peekKind_bind ?_
  split
  · rename_i hk
    exact arrives_read_bind (arrives_pure (h.passed hk rfl))
  · exact arrives_pure h

section
variable (ho : opening.kind.opposite.isCloser)
include ho

theorem closes_abandonComprehension :
    Closes src opening.kind.opposite (abandonComprehension opening) :=
  (closes_skipPast ho).still fun _ => still_previousRange.bind fun _ => still_pure _

theorem closes_closeComprehension :
    Closes src opening.kind.opposite (closeComprehension opening) := by
  intro c outer h
  refine arrives_peekKind_bind ?_
  split
  · rename_i hk
    exact arrives_close h hk ho fun _ hc _ _ => hc
  · refine (still_reportComprehension _ _).seq fun _ => ?_
    exact (closes_skipPast ho).still (fun _ => still_previousRange) h

variable (he : KeepsOperand src e)
include he

omit ho in
theorem keeps_resultPair : KeepsOperand src (resultPair e) := by
  refine he.bind fun first c outer h => arrives_peekKind_bind ?_
  split
  · rename_i hk
    refine arrives_skip_bind ?_
    exact (he (.passed h hk rfl rfl)).seq fun _ _ h => arrives_pure h
  · exact arrives_pure h

omit ho in
theorem keeps_filter : Keeps src (filter e) := by
  intro c outer h
  refine arrives_atKeyword_bind fun b hb => ?_
  split
  · rename_i hk
    refine arrives_skip_bind ?_
    exact (he (.keyword h (hb hk) (.inr rfl))).seq fun _ _ h => arrives_pure h
  · exact arrives_pure h

theorem closes_comprehensionResult (keyVar : Option String) (valueVar : String)
    (collection : Expr) : ClosesOperand src opening.kind.opposite
      (comprehensionResult e opening keyVar valueVar collection) := by
  refine (keeps_resultPair he).track_closes fun r lost => ?_
  dsimp only
  split
  · exact closes_abandonComprehension ho
  refine keeps_groupingEllipsis.closes fun ellipsis => ?_
  refine (keeps_filter he).track_closes fun condition lost => ?_
  dsimp only
  split
  · exact closes_abandonComprehension ho
  · exact (closes_closeComprehension ho).still fun close =>
      (still_checkResult _ _ _ _ _).bind fun _ => still_pure _

/-- A comprehension begins with a keyword. -/
theorem arrives_comprehension {c : Cursor} {outer : List TokenKind}
    (h : c.AtDepth src (opening.kind.opposite :: outer)) (hk : c.peek.kind = .identifier) :
    Arrives src.harmless (comprehension e opening) c fun _ c' =>
      c'.AtDepth src outer ∧ c'.Just (·.kind = opening.kind.opposite) := by
  have hpeek : (c.enter false).peek = c.peek := Cursor.peek_enter_false h.ends (by simp [hk])
    (by simp [hk])
  have hskip := (h.enter false).passed (hpeek ▸ hk) rfl
  refine Arrives.withNewlines (Arrives.mono (P := fun _ c' => c'.AtDepth src outer ∧
    c'.Just (·.kind = opening.kind.opposite)) ?_ fun _ _ h => ⟨h.1.leave, h.2⟩)
  refine arrives_skip_bind ((arrives_binders hskip).seq fun names c' h => ?_)
  split
  · exact closes_abandonComprehension ho h
  refine (he h).track_seq fun collection lost c' h => ?_
  dsimp only
  split
  · exact closes_abandonComprehension ho h
  refine arrives_peekKind_bind ?_
  split
  · exact (still_reportComprehension _ _).seq fun _ => closes_abandonComprehension ho h
  · rename_i hk
    have h := Cursor.AtOperand.passed h (Decidable.of_not_not hk) rfl rfl
    exact arrives_skip_bind (closes_comprehensionResult ho he _ _ _ h)

end

section
variable (he : KeepsOperand src e) (hf : Framed e)
include he

theorem loops_tupleStep :
    LoopsFrom Cursor.AtOperand src .closeBracket (tupleStep e opening) := by
  intro items c outer h
  refine arrives_peekKind_bind ?_
  split
  · rename_i hk
    exact arrives_close h.depth hk rfl fun _ hc => arrives_pure hc
  refine (he h).track_seq fun item lost c' h => ?_
  dsimp only
  split
  · exact arrives_giveUp rfl h.ready
  refine arrives_peek_bind ?_
  split
  · rename_i hk
    exact arrives_close h hk rfl fun _ hc => arrives_pure hc
  · rename_i hk
    exact arrives_skip_bind (arrives_pure (.passed h hk rfl rfl))
  · exact (still_reportFirst _ _ _).seq fun _ => arrives_giveUp rfl h.ready

include hf in
theorem closes_tuple (ho : opening.kind = .openBracket) :
    ClosesOperand src .closeBracket (tuple e opening) := by
  refine ClosesFrom.withNewlines (fun c outer h => arrives_atKeyword_bind fun b hb => ?_)
    (·.enter false)
  split
  · rename_i hk
    have hclose : opening.kind.opposite = .closeBracket := by rw [ho]; rfl
    rw [← hclose] at h ⊢
    exact arrives_comprehension (by rw [hclose]; rfl) he h.depth (Token.kind_of_isKeyword (hb hk))
  · exact (loops_tupleStep he).iterate (advances_tupleStep hf) (·.depth) [] |>.still
      (fun _ => still_previousRange.bind fun _ => still_pure _) h

/-- After an item the object goes on inside its braces, or they are closed. -/
theorem loops_objectItem : LoopsFrom Cursor.AtOperand src .closeBrace (objectItem e opening) := by
  intro items c outer h
  refine arrives_peek_bind ((he h).track_seq fun key lost c' h => ?_)
  dsimp only
  split
  · exact arrives_giveUp rfl h.ready
  refine arrives_peek_bind ?_
  split
  · exact (still_reportFirst _ _ _).seq fun _ => arrives_giveUp rfl h.ready
  rename_i hk
  have hvalue : c'.advance.AtOperand src (.closeBrace :: outer) := by
    by_cases ha : c'.peek.kind = .assign
    · exact .passed h ha rfl rfl
    · exact .passed h (Decidable.of_not_not fun hc => hk ⟨ha, hc⟩) rfl rfl
  refine arrives_skip_bind ((he hvalue).track_seq fun value lost c' h => ?_)
  dsimp only
  split
  · exact arrives_giveUp rfl h.ready
  -- the separator
  refine Arrives.seq (P := fun more c' => if more then c'.AtOperand src (.closeBrace :: outer)
    else c'.AtDepth src outer ∧ c'.Just (·.kind = .closeBrace)) (arrives_peek_bind ?_)
    fun _ _ h => arrives_pure h
  split
  · rename_i hk
    exact arrives_close h hk rfl fun _ hc => arrives_pure hc
  · rename_i hk
    exact arrives_skip_bind (arrives_pure (.passed h hk rfl rfl))
  · rename_i hk
    exact arrives_skip_bind (arrives_pure (.passed h hk rfl rfl))
  · exact (still_reportFirst _ _ _).seq fun _ =>
      (arrives_skipPast rfl h.ready).seq fun _ _ hc => arrives_pure hc

theorem loops_objectStep : LoopsFrom Cursor.AtOperand src .closeBrace (objectStep e opening) := by
  intro items c outer h
  refine arrives_peekKind_bind ?_
  split
  · rename_i hk
    exact arrives_skip_bind (arrives_pure (.passed h.depth hk rfl rfl))
  · rename_i hk
    exact arrives_close h.depth hk rfl fun _ hc => arrives_pure hc
  · exact loops_objectItem he items h

include hf in
theorem closes_object (ho : opening.kind = .openBrace) :
    ClosesOperand src .closeBrace (object e opening) := by
  refine ClosesFrom.withNewlines (fun c outer h => arrives_atKeyword_bind fun b hb => ?_)
    (·.enter true)
  split
  · rename_i hk
    have hclose : opening.kind.opposite = .closeBrace := by rw [ho]; rfl
    rw [← hclose] at h ⊢
    exact arrives_comprehension (by rw [hclose]; rfl) he h.depth (Token.kind_of_isKeyword (hb hk))
  · exact (loops_objectStep he).iterate (advances_objectStep hf) (·.depth) [] |>.still
      (fun _ => still_previousRange.bind fun _ => still_pure _) h

/-- A parenthesis in the place of a separator is not harmless. -/
theorem loops_argumentStep (name : Token) :
    LoopsFrom Cursor.AtOperand src .closeParen (argumentStep e name opening) := by
  intro a c outer h
  refine arrives_peekKind_bind ?_
  split
  · rename_i hk
    exact arrives_close h.depth hk rfl fun _ hc => arrives_pure hc
  refine (he h).track_seq fun arg lost c' h => ?_
  dsimp only
  split
  · exact arrives_giveUp rfl h.ready
  refine arrives_read_bind ?_
  split
  · rename_i hk
    exact arrives_pure ⟨h.closer hk rfl, Cursor.just_advance hk⟩
  · rename_i hk
    exact arrives_pure (.passed h hk rfl rfl)
  · rename_i hk
    have h := h.passed hk rfl
    refine arrives_peekKind_bind ?_
    split
    · rename_i hk
      exact arrives_close h hk rfl fun _ hc => arrives_pure hc
    · exact (still_reportFirst _ _ _).seq fun _ =>
        (arrives_skipPast rfl h.ready).seq fun _ _ hc => arrives_pure hc
  · rename_i hk
    exact (still_report _ _ _).seq fun _ => arrives_giveUp rfl (h.passed hk rfl).ready
  · rename_i hne _ _ heof
    by_cases hk : c'.peek.kind = .openParen
    · refine arrives_report_bind fun hd => hd.2 rfl c'.peek (h.peek_mem heof) hk rfl
    · refine (still_report _ _ _).seq fun _ =>
        arrives_giveUp rfl (h.ready_advance fun ho hkind => ?_)
      cases hc : c'.peek.kind <;> simp_all [TokenKind.opposite, TokenKind.isOpener]

include hf in
theorem closes_call (name : Token) : ClosesOperand src .closeParen (call e name opening) :=
  (((loops_argumentStep he name).iterate (advances_argumentStep hf name) (·.depth) _).withNewlines
    (·.enter false)).still fun _ => still_previousRange.bind fun _ => still_pure _

end

end HclSyntax.Parser
