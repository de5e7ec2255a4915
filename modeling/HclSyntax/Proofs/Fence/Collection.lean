import Mathlib.Logic.Basic
import HclSyntax.Proofs.Fence.Run

namespace HclSyntax.Parser

variable {f : Fence} {opening : Token} {e : Parser Expr}

theorem stays_inKeyword (key : Option String) (value : String) :
    Stays f (inKeyword opening key value) := by
  intro c closers h
  refine arrives_atKeyword_bind fun b hb => ?_
  split
  · rename_i hk
    exact arrives_skip_bind (arrives_pure (h.passed (Token.kind_of_isKeyword (hb hk)) rfl))
  · exact (still_reportComprehension _ _).seq fun _ => arrives_pure h

theorem stays_binders : Stays f (binders opening) := by
  intro c closers h
  refine arrives_peekKind_bind ?_
  split
  · exact (still_reportComprehension _ _).seq fun _ => arrives_pure h
  rename_i hk
  have h := h.passed (Decidable.of_not_not hk) rfl
  refine arrives_read_bind (arrives_peekKind_bind ?_)
  split
  · exact stays_inKeyword _ _ h
  rename_i hk
  have h := h.passed (Decidable.of_not_not hk) rfl
  refine arrives_skip_bind (arrives_peekKind_bind ?_)
  split
  · exact (still_reportComprehension _ _).seq fun _ => arrives_pure h
  rename_i hk
  have h := h.passed (Decidable.of_not_not hk) rfl
  exact arrives_read_bind (stays_inKeyword _ _ h)

theorem stays_groupingEllipsis : Stays f groupingEllipsis := by
  intro c closers h
  refine arrives_peekKind_bind ?_
  split
  · rename_i hk
    exact arrives_read_bind (arrives_pure (h.passed hk rfl))
  · exact arrives_pure h

section
variable (ho : opening.kind.opposite.isCloser)
include ho

theorem exits_abandonComprehension :
    Exits f opening.kind.opposite (abandonComprehension opening) :=
  (exits_skipPast ho).still fun _ => still_previousRange.bind fun _ => still_pure _

theorem exits_closeComprehension : Exits f opening.kind.opposite (closeComprehension opening) := by
  intro c closers h
  refine arrives_peekKind_bind ?_
  split
  · exact arrives_skip_bind (still_previousRange.stays h.shorten)
  · exact (still_reportComprehension _ _).seq fun _ =>
      (exits_skipPast ho).still (fun _ => still_previousRange) h

variable (he : Stays f e)
include he

omit ho in
theorem stays_resultPair : Stays f (resultPair e) := by
  refine he.bind fun first c closers h => arrives_peekKind_bind ?_
  split
  · rename_i hk
    exact arrives_skip_bind ((he (h.passed hk rfl)).seq fun _ _ h => arrives_pure h)
  · exact arrives_pure h

omit ho in
theorem stays_filter : Stays f (filter e) := by
  intro c closers h
  refine arrives_atKeyword_bind fun b hb => ?_
  split
  · rename_i hk
    have hpast := h.passed (Token.kind_of_isKeyword (hb hk)) rfl
    exact arrives_skip_bind ((he hpast).seq fun _ _ h => arrives_pure h)
  · exact arrives_pure h

theorem exits_comprehensionResult (keyVar : Option String) (valueVar : String)
    (collection : Expr) : Exits f opening.kind.opposite
      (comprehensionResult e opening keyVar valueVar collection) := by
  refine (stays_resultPair he).track_exits fun r lost => ?_
  dsimp only
  split
  · exact exits_abandonComprehension ho
  refine stays_groupingEllipsis.exits fun ellipsis => ?_
  refine (stays_filter he).track_exits fun condition lost => ?_
  dsimp only
  split
  · exact exits_abandonComprehension ho
  · exact (exits_closeComprehension ho).still fun close =>
      (still_checkResult _ _ _ _ _).bind fun _ => still_pure _

/-- A comprehension begins with a keyword. -/
theorem ends_comprehension {c : Cursor} {closers : List TokenKind}
    (h : c.Fenced f (opening.kind.opposite :: closers)) (hk : c.peek.kind = .identifier) :
    Ends (comprehension e opening) c fun _ c' => c'.Fenced f closers := by
  have hpeek : (c.enter false).peek = c.peek :=
    Cursor.peek_enter_false h.ends (by simp [hk]) (by simp [hk])
  have hskip := (h.enter false).passed (hpeek ▸ hk) rfl
  refine Arrives.withNewlines (Arrives.mono (P := fun _ c' => c'.Fenced f closers) ?_
    fun _ _ h => h.leave)
  refine arrives_skip_bind ((stays_binders hskip).seq fun names c' h => ?_)
  split
  · exact exits_abandonComprehension ho h
  refine (he h).track_seq fun collection lost c' h => ?_
  dsimp only
  split
  · exact exits_abandonComprehension ho h
  refine arrives_peekKind_bind ?_
  split
  · exact (still_reportComprehension _ _).seq fun _ => exits_abandonComprehension ho h
  · rename_i hk
    have h := h.passed (Decidable.of_not_not hk) rfl
    exact arrives_skip_bind (exits_comprehensionResult ho he _ _ _ h)

end

section
variable (he : Stays f e) (hf : Framed e)
include he

theorem turns_tupleStep : Turns f .closeBracket (tupleStep e opening) := by
  intro items c closers h
  refine arrives_peekKind_bind ?_
  split
  · exact arrives_skip_bind (arrives_pure h.shorten)
  refine (he h).track_seq fun item lost c' h => ?_
  dsimp only
  split
  · exact stepped_giveUp rfl h
  refine arrives_peek_bind ?_
  split
  · exact arrives_skip_bind (arrives_pure h.shorten)
  · rename_i hk
    exact arrives_skip_bind (arrives_pure (h.passed hk rfl))
  · exact (still_reportFirst _ _ _).seq fun _ => stepped_giveUp rfl h

include hf in
theorem exits_tuple (ho : opening.kind = .openBracket) : Exits f .closeBracket (tuple e opening) := by
  refine Exits.withNewlines (fun c closers h => arrives_atKeyword_bind fun b hb => ?_) false
  split
  · rename_i hk
    have hclose : opening.kind.opposite = .closeBracket := by rw [ho]; rfl
    rw [← hclose] at h
    exact ends_comprehension (by rw [hclose]; rfl) he h (Token.kind_of_isKeyword (hb hk))
  · exact ((turns_tupleStep he).iterate (advances_tupleStep hf) []).still
      (fun _ => still_previousRange.bind fun _ => still_pure _) h

theorem turns_objectItem : Turns f .closeBrace (objectItem e opening) := by
  intro items c closers h
  refine arrives_peek_bind ((he h).track_seq fun key lost c' h => ?_)
  dsimp only
  split
  · exact stepped_giveUp rfl h
  refine arrives_peek_bind ?_
  split
  · exact (still_reportFirst _ _ _).seq fun _ => stepped_giveUp rfl h
  rename_i hk
  have hflat : c'.peek.kind.isCloser = false := by
    rw [ne_eq, ne_eq, not_and_or, not_not, not_not] at hk
    rcases hk with hk | hk <;> rw [hk] <;> rfl
  refine arrives_skip_bind ((he (h.pass hflat)).track_seq fun value lost c' h => ?_)
  dsimp only
  split
  · exact stepped_giveUp rfl h
  have hseparator : Ends (objectSeparator opening) c' fun more c' =>
      c'.Fenced f (if more then .closeBrace :: closers else closers) := by
    refine arrives_peek_bind ?_
    split
    · exact arrives_skip_bind (arrives_pure h.shorten)
    · rename_i hk
      exact arrives_skip_bind (arrives_pure (h.passed hk rfl))
    · rename_i hk
      exact arrives_skip_bind (arrives_pure (h.passed hk rfl))
    · exact (still_reportFirst _ _ _).seq fun _ =>
        (exits_skipPast rfl h).seq fun _ _ h => arrives_pure h
  exact hseparator.seq fun _ _ h => arrives_pure h

theorem turns_objectStep : Turns f .closeBrace (objectStep e opening) := by
  intro items c closers h
  refine arrives_peekKind_bind ?_
  split
  · rename_i hk
    exact arrives_skip_bind (arrives_pure (h.passed hk rfl))
  · exact arrives_skip_bind (arrives_pure h.shorten)
  · exact turns_objectItem he items h

include hf in
theorem exits_object (ho : opening.kind = .openBrace) : Exits f .closeBrace (object e opening) := by
  refine Exits.withNewlines (fun c closers h => arrives_atKeyword_bind fun b hb => ?_) true
  split
  · rename_i hk
    have hclose : opening.kind.opposite = .closeBrace := by rw [ho]; rfl
    rw [← hclose] at h
    exact ends_comprehension (by rw [hclose]; rfl) he h (Token.kind_of_isKeyword (hb hk))
  · exact ((turns_objectStep he).iterate (advances_objectStep hf) []).still
      (fun _ => still_previousRange.bind fun _ => still_pure _) h

/-- A token in the place of a separator is passed, unless it is the closing parenthesis. -/
theorem turns_argumentStep (name : Token) : Turns f .closeParen (argumentStep e name opening) := by
  intro a c closers h
  refine arrives_peekKind_bind ?_
  split
  · exact arrives_skip_bind (arrives_pure h.shorten)
  refine (he h).track_seq fun arg lost c' h => ?_
  dsimp only
  split
  · exact stepped_giveUp rfl h
  refine arrives_read_bind ?_
  split
  · exact arrives_pure h.shorten
  · rename_i hk
    exact arrives_pure (h.passed hk rfl)
  · rename_i hk
    have h := h.passed hk rfl
    refine arrives_peekKind_bind ?_
    split
    · exact arrives_skip_bind (arrives_pure h.shorten)
    · exact (still_reportFirst _ _ _).seq fun _ =>
        (exits_skipPast rfl h).seq fun _ _ h => arrives_pure h
  · rename_i hk
    exact (still_report _ _ _).seq fun _ => stepped_giveUp rfl (h.passed hk rfl)
  · rename_i hne _ _ _
    exact (still_report _ _ _).seq fun _ => stepped_giveUp rfl (h.pass_ne hne)

include hf in
theorem exits_call (name : Token) : Exits f .closeParen (call e name opening) :=
  (((turns_argumentStep he name).iterate (advances_argumentStep hf name) _).withNewlines
    false).still fun _ => still_previousRange.bind fun _ => still_pure _

end

end HclSyntax.Parser
