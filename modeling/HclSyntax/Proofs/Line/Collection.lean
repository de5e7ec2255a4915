import HclSyntax.Parser.Collection
import HclSyntax.Proofs.Line.Operator

namespace HclSyntax.Parser

variable {x : Surroundings} {c : Cursor} {modes : List Bool} {closers : List TokenKind}
  {k : TokenKind} {m n : Nat} {e e' : Parser Expr} {opening : Token}

/-- What is given up is skipped to its end. -/
theorem agrees_skipPast {α : Type} {f f' : Unit → Parser α} {Q : α → Cursor → Prop}
    (hk : k.isCloser) (h : c.Within modes (k :: closers) m)
    (hf : ∀ c', c'.Within modes closers m → (f ()).Agrees x (f' ()) c' Q) :
    (skipPast k >>= f).Agrees x (skipPast k >>= f') c Q :=
  (containedTo_skipPast hk c modes closers m (Nat.le_refl m) h).seq fun _ c' hw => hf c' hw

theorem agrees_reportComprehension_bind {α : Type} {p : ComprehensionProblem}
    {f f' : Unit → Parser α} {Q : α → Cursor → Prop} (hs : Cursor.Clear modes closers)
    (h : c.Within modes closers m) (hf : (f ()).Agrees x (f' ()) c Q) :
    (reportComprehension opening p >>= f).Agrees x (reportComprehension opening p >>= f') c Q := by
  apply Agrees.bind
  apply agrees_peek_bind h hs
  exact agrees_reportFirst hf

theorem containedTo_abandonComprehension (ho : opening.kind.isOpener) :
    ContainedTo x opening.kind.opposite n (abandonComprehension opening)
      (abandonComprehension opening) := by
  intro c modes closers m _ h
  unfold abandonComprehension
  refine agrees_skipPast (TokenKind.opposite_isCloser ho) h fun c' hw => ?_
  exact agrees_previousRange_bind hw (agrees_pure hw)

theorem contained_inKeyword (key : Option String) (value : String) :
    Contained x n (inKeyword opening key value) (inKeyword opening key value) := by
  intro c modes closers m _ hs h
  unfold inKeyword
  apply agrees_atKeyword_bind h hs
  split
  · rename_i hin
    obtain ⟨j, rfl⟩ := h.bound_pos
    have hw := pass_of_passable h hs (by rw [Token.kind_of_isKeyword hin]; decide)
    exact agrees_skip_bind h hs (agrees_pure (hw.mono (Nat.le_succ j)))
  · exact agrees_reportComprehension_bind hs h (agrees_pure h)

theorem contained_binders :
    Contained x n (binders opening) (binders opening) := by
  intro c modes closers m _ hs h
  unfold binders
  apply agrees_peekKind_bind h hs
  split
  · exact agrees_reportComprehension_bind hs h (agrees_pure h)
  rename_i hfirst
  obtain ⟨j, rfl⟩ := h.bound_pos
  have h₁ := pass_of_passable h hs (by rw [Decidable.of_not_not hfirst]; decide)
  apply agrees_read_bind h hs
  apply agrees_peekKind_bind h₁ hs
  split
  · refine (contained_inKeyword _ _ _ modes closers j (Nat.le_refl j) hs h₁).mono fun _ _ hw => ?_
    exact hw.mono (Nat.le_succ j)
  rename_i hcomma
  obtain ⟨i, rfl⟩ := h₁.bound_pos
  have h₂ := pass_of_passable h₁ hs (by rw [Decidable.of_not_not hcomma]; decide)
  apply agrees_skip_bind h₁ hs
  apply agrees_peekKind_bind h₂ hs
  split
  · exact agrees_reportComprehension_bind hs h₂ (agrees_pure (h₂.mono (by omega)))
  rename_i hsecond
  obtain ⟨l, rfl⟩ := h₂.bound_pos
  have h₃ := pass_of_passable h₂ hs (by rw [Decidable.of_not_not hsecond]; decide)
  apply agrees_read_bind h₂ hs
  refine (contained_inKeyword _ _ _ modes closers l (Nat.le_refl l) hs h₃).mono fun _ _ hw => ?_
  exact hw.mono (by omega)

theorem contained_resultPair (he : Contained x n e e') :
    Contained x n (resultPair e) (resultPair e') := by
  intro c modes closers m hm hs h
  unfold resultPair
  refine (he c modes closers m hm hs h).seq fun first c₁ h₁ => ?_
  apply agrees_peekKind_bind h₁ hs
  split
  · rename_i harrow
    obtain ⟨j, rfl⟩ := h₁.bound_pos
    have h₂ := pass_of_passable h₁ hs (by rw [harrow]; decide)
    apply agrees_skip_bind h₁ hs
    refine (he _ modes closers j (by omega) hs h₂).seq fun value c₃ h₃ => ?_
    exact agrees_pure (h₃.mono (Nat.le_succ j))
  · exact agrees_pure h₁

theorem contained_filter (he : Contained x n e e') : Contained x n (filter e) (filter e') := by
  intro c modes closers m hm hs h
  unfold filter
  apply agrees_atKeyword_bind h hs
  split
  · rename_i hif
    obtain ⟨j, rfl⟩ := h.bound_pos
    have h₁ := pass_of_passable h hs (by rw [Token.kind_of_isKeyword hif]; decide)
    apply agrees_skip_bind h hs
    refine (he _ modes closers j (by omega) hs h₁).seq fun condition c₂ h₂ => ?_
    exact agrees_pure (h₂.mono (Nat.le_succ j))
  · exact agrees_pure h

theorem contained_groupingEllipsis : Contained x n groupingEllipsis groupingEllipsis := by
  intro c modes closers m _ hs h
  unfold groupingEllipsis
  apply agrees_peekKind_bind h hs
  split
  · rename_i hk
    obtain ⟨j, rfl⟩ := h.bound_pos
    have hw := pass_of_passable h hs (by rw [hk]; decide)
    exact agrees_read_bind h hs (agrees_pure (hw.mono (Nat.le_succ j)))
  · exact agrees_pure h

theorem containedTo_closeComprehension (ho : opening.kind.isOpener) :
    ContainedTo x opening.kind.opposite n (closeComprehension opening)
      (closeComprehension opening) := by
  intro c modes closers m _ h
  have hs := Cursor.clear_cons modes opening.kind.opposite closers
  unfold closeComprehension
  apply agrees_peekKind_bind h hs
  split
  · obtain ⟨j, rfl⟩ := h.bound_pos
    have hw := h.shorten.mono (Nat.le_succ j)
    exact agrees_skip_bind h hs (agrees_previousRange hw hw)
  · apply agrees_reportComprehension_bind hs h
    refine agrees_skipPast (TokenKind.opposite_isCloser ho) h fun c' hw => ?_
    exact agrees_previousRange hw hw

theorem agrees_checkResult {key : Option Expr} {value : Expr} {ellipsis : Option Token}
    {whole : SourceRange} {Q : Unit → Cursor → Prop} (h : Q () c) :
    (checkResult opening key value ellipsis whole).Agrees x
      (checkResult opening key value ellipsis whole) c Q := by
  unfold checkResult
  split
  · split
    · exact agrees_report h
    · exact agrees_pure h
  · cases key <;> cases ellipsis
    · exact agrees_pure h
    · exact agrees_report h
    · exact agrees_report_bind (agrees_pure h)
    · exact agrees_report_bind (agrees_report h)

theorem containedTo_comprehensionResult (ho : opening.kind.isOpener) (he : Contained x n e e')
    (keyVar : Option String) (valueVar : String) (collection : Expr) :
    ContainedTo x opening.kind.opposite n
      (comprehensionResult e opening keyVar valueVar collection)
      (comprehensionResult e' opening keyVar valueVar collection) := by
  intro c modes closers m hm h
  have hs := Cursor.clear_cons modes opening.kind.opposite closers
  unfold comprehensionResult
  refine (contained_resultPair he c modes _ m hm hs h).track_seq fun pair lost c₁ h₁ => ?_
  dsimp only
  split
  · exact containedTo_abandonComprehension ho c₁ modes closers m hm h₁
  refine (contained_groupingEllipsis c₁ modes _ m hm hs h₁).seq fun ellipsis c₂ h₂ => ?_
  refine (contained_filter he c₂ modes _ m hm hs h₂).track_seq fun condition lost c₃ h₃ => ?_
  dsimp only
  split
  · exact containedTo_abandonComprehension ho c₃ modes closers m hm h₃
  refine (containedTo_closeComprehension ho c₃ modes closers m hm h₃).seq fun close c₄ h₄ => ?_
  exact Agrees.bind (agrees_checkResult (agrees_pure h₄))

theorem containedTo_comprehension (ho : opening.kind.isOpener) (he : Contained x n e e')
    (hm : m ≤ n) (hfor : c.peek.isKeyword "for")
    (h : c.Within modes (opening.kind.opposite :: closers) m) :
    (comprehension e opening).Agrees x (comprehension e' opening) c
      fun _ c' => c'.Within modes closers m := by
  have hs := Cursor.clear_cons (false :: modes) opening.kind.opposite closers
  have h₀ := h.enter false
  obtain ⟨j, rfl⟩ := h.bound_pos
  have hpeek : (c.enter false).peek.kind = .identifier := by
    rw [h.peek_enter (Cursor.clear_cons _ _ _) hs, Token.kind_of_isKeyword hfor]
  have h₁ := pass_of_passable h₀ hs (by rw [hpeek]; decide)
  have hgive {c' : Cursor}
      (h' : c'.Within (false :: modes) (opening.kind.opposite :: closers) j) :
      (abandonComprehension opening).Agrees x (abandonComprehension opening) c'
        fun _ c'' => c''.leave.Within modes closers (j + 1) := by
    refine (containedTo_abandonComprehension ho c' _ closers j (Nat.le_refl j) h').mono ?_
    exact fun _ _ hw => hw.leave.mono (Nat.le_succ j)
  unfold comprehension
  apply agrees_withNewlines
  apply agrees_skip_bind h₀ hs
  refine (contained_binders _ _ _ j (Nat.le_refl j) hs h₁).seq fun names c₂ h₂ => ?_
  split
  · exact hgive h₂
  refine (he c₂ _ _ j (by omega) hs h₂).track_seq fun collection lost c₃ h₃ => ?_
  dsimp only
  split
  · exact hgive h₃
  apply agrees_peekKind_bind h₃ hs
  split
  · exact agrees_reportComprehension_bind hs h₃ (hgive h₃)
  rename_i hcolon
  obtain ⟨i, rfl⟩ := h₃.bound_pos
  have h₄ := pass_of_passable h₃ hs (by rw [Decidable.of_not_not hcolon]; decide)
  apply agrees_skip_bind h₃ hs
  refine (containedTo_comprehensionResult ho he _ _ _ _ _ closers i (by omega) h₄).mono ?_
  exact fun _ _ hw => hw.leave.mono (by omega)

/-- What is given up ends a loop. -/
theorem agrees_skipPast_done {σ : Type} {a : σ} {needs : List TokenKind} (hk : k.isCloser)
    (h : c.Within modes (k :: closers) m) :
    (skipPast k >>= fun _ => pure (a, false)).Agrees x (skipPast k >>= fun _ => pure (a, false)) c
      fun r c' => Continues modes needs closers m c' r.2 :=
  agrees_skipPast hk h fun _ hw => agrees_pure (.done hw)

theorem agrees_tupleStep (he : Contained x n e e') (items : List Expr) (hm : m ≤ n)
    (h : c.Within modes (.closeBracket :: closers) m) :
    (tupleStep e opening items).Agrees x (tupleStep e' opening items) c fun r c' =>
      Continues modes (.closeBracket :: closers) closers m c' r.2 := by
  have hs := Cursor.clear_cons modes .closeBracket closers
  obtain ⟨j, rfl⟩ := h.bound_pos
  unfold tupleStep
  apply agrees_peekKind_bind h hs
  split
  · exact agrees_skip_bind h hs (agrees_pure (.done (h.shorten.mono (Nat.le_succ j))))
  refine (he c modes _ (j + 1) hm hs h).track_seq fun item lost c₁ h₁ => ?_
  dsimp only
  split
  · exact agrees_skipPast_done rfl h₁
  apply agrees_peek_bind h₁ hs
  split
  · exact agrees_skip_bind h₁ hs (agrees_pure (.done (h₁.shorten.mono (Nat.le_succ j))))
  · rename_i hk
    have hw := pass_of_passable h₁ hs (by rw [hk]; decide)
    exact agrees_skip_bind h₁ hs (agrees_pure (.more (Nat.lt_succ_self j) hw))
  · exact agrees_reportFirst_bind (agrees_skipPast_done rfl h₁)

theorem containedTo_tuple (ho : opening.kind = .openBracket) (he : Contained x n e e') :
    ContainedTo x .closeBracket n (tuple e opening) (tuple e' opening) := by
  intro c modes closers m hm h
  have h₀ := h.enter false
  unfold tuple
  apply agrees_withNewlines
  apply agrees_atKeyword_bind h₀ (Cursor.clear_cons _ _ _)
  split
  · rename_i hfor
    have hopener : opening.kind.isOpener := by rw [ho]; rfl
    have hcloser : opening.kind.opposite = .closeBracket := by rw [ho]; rfl
    refine (containedTo_comprehension hopener he hm hfor (by rwa [hcloser])).mono fun _ _ hw => ?_
    exact hw.leave
  · apply Agrees.seq (P := fun _ c' => c'.Within (_ :: modes) closers m)
    · exact agrees_iterate (fun _ => .closeBracket :: closers) []
        (fun items c j hj hc => agrees_tupleStep he items (Nat.le_trans hj hm) hc) h₀
    · exact fun items c' hw => agrees_previousRange_bind hw (agrees_pure hw.leave)

theorem agrees_objectSeparator (h : c.Within modes (.closeBrace :: closers) m) :
    (objectSeparator opening).Agrees x (objectSeparator opening) c fun more c' =>
      Continues modes (.closeBrace :: closers) closers m c' more := by
  have hs := Cursor.clear_cons modes .closeBrace closers
  obtain ⟨j, rfl⟩ := h.bound_pos
  unfold objectSeparator
  apply agrees_peek_bind h hs
  split
  · exact agrees_skip_bind h hs (agrees_pure (.done (h.shorten.mono (Nat.le_succ j))))
  · rename_i hk
    have hw := pass_of_passable h hs (by rw [hk]; decide)
    exact agrees_skip_bind h hs (agrees_pure (.more (Nat.lt_succ_self j) hw))
  · rename_i hk
    exact absurd hk h.kind_ne_newline
  · apply agrees_reportFirst_bind
    exact agrees_skipPast rfl h fun _ hw => agrees_pure (.done hw)

theorem agrees_objectItem (he : Contained x n e e') (items : List (Expr × Expr)) (hm : m ≤ n)
    (h : c.Within modes (.closeBrace :: closers) m) :
    (objectItem e opening items).Agrees x (objectItem e' opening items) c fun r c' =>
      Continues modes (.closeBrace :: closers) closers m c' r.2 := by
  have hs := Cursor.clear_cons modes .closeBrace closers
  unfold objectItem
  apply agrees_peek_bind h hs
  refine (he c modes _ m hm hs h).track_seq fun key lost c₁ h₁ => ?_
  dsimp only
  split
  · exact agrees_skipPast_done rfl h₁
  apply agrees_peek_bind h₁ hs
  obtain ⟨j, rfl⟩ := h₁.bound_pos
  by_cases hk : c₁.peek.kind ≠ .assign ∧ c₁.peek.kind ≠ .colon
  · rw [if_pos hk, if_pos hk]
    exact agrees_reportFirst_bind (agrees_skipPast_done rfl h₁)
  rw [if_neg hk, if_neg hk]
  have hpass : Passable c₁.peek.kind := by
    by_cases ha : c₁.peek.kind = .assign
    · rw [ha]
      decide
    · rw [Decidable.of_not_not fun hc => hk ⟨ha, hc⟩]
      decide
  apply agrees_skip_bind h₁ hs
  have hvalue := he _ modes _ j (by omega) hs (pass_of_passable h₁ hs hpass)
  refine hvalue.track_seq fun value lost c₂ h₂ => ?_
  have h₂ := h₂.mono (Nat.le_succ j)
  dsimp only
  split
  · exact agrees_skipPast_done rfl h₂
  · exact (agrees_objectSeparator h₂).seq fun more c' hr => agrees_pure hr

theorem agrees_objectStep (he : Contained x n e e') (items : List (Expr × Expr)) (hm : m ≤ n)
    (h : c.Within modes (.closeBrace :: closers) m) :
    (objectStep e opening items).Agrees x (objectStep e' opening items) c fun r c' =>
      Continues modes (.closeBrace :: closers) closers m c' r.2 := by
  have hs := Cursor.clear_cons modes .closeBrace closers
  unfold objectStep
  apply agrees_peekKind_bind h hs
  split
  · rename_i hk
    exact absurd hk h.kind_ne_newline
  · obtain ⟨j, rfl⟩ := h.bound_pos
    exact agrees_skip_bind h hs (agrees_pure (.done (h.shorten.mono (Nat.le_succ j))))
  · exact agrees_objectItem he items hm h

theorem containedTo_object (ho : opening.kind = .openBrace) (he : Contained x n e e') :
    ContainedTo x .closeBrace n (object e opening) (object e' opening) := by
  intro c modes closers m hm h
  have h₀ := h.enter true
  unfold object
  apply agrees_withNewlines
  apply agrees_atKeyword_bind h₀ (Cursor.clear_cons _ _ _)
  split
  · rename_i hfor
    have hopener : opening.kind.isOpener := by rw [ho]; rfl
    have hcloser : opening.kind.opposite = .closeBrace := by rw [ho]; rfl
    refine (containedTo_comprehension hopener he hm hfor (by rwa [hcloser])).mono fun _ _ hw => ?_
    exact hw.leave
  · apply Agrees.seq (P := fun _ c' => c'.Within (_ :: modes) closers m)
    · exact agrees_iterate (fun _ => .closeBrace :: closers) []
        (fun items c j hj hc => agrees_objectStep he items (Nat.le_trans hj hm) hc) h₀
    · exact fun items c' hw => agrees_previousRange_bind hw (agrees_pure hw.leave)

theorem agrees_argumentStep {name : Token} (he : Contained x n e e') (a : Arguments) (hm : m ≤ n)
    (h : c.Within modes (.closeParen :: closers) m) :
    (argumentStep e name opening a).Agrees x (argumentStep e' name opening a) c fun r c' =>
      Continues modes (.closeParen :: closers) closers m c' r.2 := by
  have hs := Cursor.clear_cons modes .closeParen closers
  obtain ⟨j, rfl⟩ := h.bound_pos
  unfold argumentStep
  apply agrees_peekKind_bind h hs
  split
  · exact agrees_skip_bind h hs (agrees_pure (.done (h.shorten.mono (Nat.le_succ j))))
  refine (he c modes _ (j + 1) hm hs h).track_seq fun item lost c₁ h₁ => ?_
  dsimp only
  split
  · exact agrees_skipPast_done rfl h₁
  apply agrees_read_bind h₁ hs
  split
  · exact agrees_pure (.done (h₁.shorten.mono (Nat.le_succ j)))
  · rename_i hk
    exact agrees_pure (.more (Nat.lt_succ_self j) (pass_of_passable h₁ hs (by rw [hk]; decide)))
  · rename_i hk
    have h₂ := pass_of_passable h₁ hs (by rw [hk]; decide)
    have hdone {c' : Cursor} {a : Arguments} (hw : c'.Within modes closers j) :
        (pure (a, false) : Parser (Arguments × Bool)).Agrees x (pure (a, false)) c'
          fun r c' => Continues modes (.closeParen :: closers) closers (j + 1) c' r.2 :=
      agrees_pure (.done (hw.mono (Nat.le_succ j)))
    apply agrees_peekKind_bind h₂ hs
    split
    · obtain ⟨i, rfl⟩ := h₂.bound_pos
      exact agrees_skip_bind h₂ hs (hdone (h₂.shorten.mono (Nat.le_succ i)))
    · exact agrees_reportFirst_bind (agrees_skipPast rfl h₂ fun _ => hdone)
  · rename_i hk
    exact absurd hk (h₁.kind_ne hs).1
  · rename_i hk _ _ _
    have h₂ := (h₁.pass_ne hk).mono (Nat.le_succ j)
    exact agrees_report_bind (agrees_skipPast_done rfl h₂)

theorem containedTo_call (he : Contained x n e e') (name : Token) :
    ContainedTo x .closeParen n (call e name opening) (call e' name opening) := by
  intro c modes closers m hm h
  unfold call
  apply Agrees.seq (P := fun _ c' => c'.Within modes closers m)
  · apply agrees_withNewlines
    apply Agrees.mono (Q := fun _ c' => c'.Within (false :: modes) closers m)
    · exact agrees_iterate (fun _ => .closeParen :: closers) _
        (fun a c j hj hc => agrees_argumentStep he a (Nat.le_trans hj hm) hc) (h.enter false)
    · exact fun _ _ hw => hw.leave
  · exact fun a c' hw => agrees_previousRange_bind hw (agrees_pure hw)

end HclSyntax.Parser
