import HclSyntax.Proofs.Written.Suffix

namespace HclSyntax.Parser

variable {x : Surroundings} {c : Cursor} {modes : List Bool} {opened : List Bracket} {b : Bracket}
  {m n : Nat} {e : Parser Expr} {opening : Token}

theorem alike_chunk {t : Token} {Q : String → Cursor → Prop} (h : ∀ text, Q text c) :
    (chunk t).Alike x (chunk t) c Q := by
  unfold chunk
  exact alike_tell_bind (alike_pure (h _))

theorem alike_closeSequence (hx : x.Line) {p : Problem} {start : SourceRange}
    (hf : Cursor.Fits modes (b :: opened)) (h : c.InValue true modes (b :: opened) m) :
    (closeSequence p start).Alike x (closeSequence p start) c fun _ c' =>
      c'.InValue true modes opened m := by
  have hs := h.same_open hf hx
  unfold closeSequence
  apply alike_peek_bind hs
  split
  · rename_i hk
    exact alike_skip_bind hs (alike_pure (h.closed hf (by rw [hk]; rfl)))
  · exact alike_reportFirst_bind

theorem alike_loopCollection (hx : x.Line) (he : Carried x n e) (key : Option String)
    (value : String) (hm : m ≤ n) (hf : Cursor.Fits modes (b :: opened))
    (h : c.InValue true modes (b :: opened) m) :
    (loopCollection e key value).Alike x (loopCollection e key value) c fun d c' =>
      d.isSome ∧ c'.InValue true modes (b :: opened) m := by
  have hs := h.same_open hf hx
  unfold loopCollection
  apply alike_atKeyword_bind hs
  split
  · rename_i hin
    have h₁ := h.skip hf (by rw [Token.kind_of_isKeyword hin]; decide)
    apply alike_skip_bind hs
    exact (he hm hf h₁.weaken).seq fun collection c₂ h₂ => alike_pure ⟨rfl, h₂⟩
  · exact alike_peek_end alike_reportFirst_bind

theorem alike_loopHeader (hx : x.Line) (he : Carried x n e) (hm : m ≤ n)
    (hf : Cursor.Fits modes (b :: opened)) (h : c.InValue true modes (b :: opened) m) :
    (loopHeader e).Alike x (loopHeader e) c fun d c' =>
      d.isSome ∧ c'.InValue true modes (b :: opened) m := by
  unfold loopHeader
  apply alike_read_bind (h.same_open hf hx)
  split
  · exact alike_reportFirst_bind
  rename_i hfirst
  have h₁ := h.skip hf (by rw [Decidable.of_not_not hfirst]; decide)
  have hs₁ := h₁.same_open hf hx
  apply alike_peekKind_bind hs₁
  split
  · exact alike_loopCollection hx he _ _ hm hf h₁
  rename_i hcomma
  have h₂ := h₁.skip hf (by rw [Decidable.of_not_not hcomma]; decide)
  apply alike_skip_bind hs₁
  apply alike_read_bind (h₂.same_open hf hx)
  split
  · exact alike_reportFirst_bind
  rename_i hsecond
  have h₃ := h₂.skip hf (by rw [Decidable.of_not_not hsecond]; decide)
  exact alike_loopCollection hx he _ _ hm hf h₃

theorem alike_directiveContent (hx : x.Line) (he : Carried x n e) (keyword : Token) (hm : m ≤ n)
    (hf : Cursor.Fits modes (b :: opened)) (h : c.InValue true modes (b :: opened) m) :
    (directiveContent e opening keyword).Alike x (directiveContent e opening keyword) c fun d c' =>
      d.isSome ∧ c'.InValue true modes (b :: opened) m := by
  unfold directiveContent
  split
  · exact (he hm hf h.weaken).seq fun condition c' hw => alike_pure ⟨rfl, hw⟩
  · exact alike_pure ⟨rfl, h⟩
  · exact alike_pure ⟨rfl, h⟩
  · exact alike_loopHeader hx he hm hf h
  · exact alike_pure ⟨rfl, h⟩
  · exact alike_reportFirst_bind

theorem alike_directive (hx : x.Line) (he : Carried x n e) (hm : m ≤ n)
    (hf : Cursor.Fits modes (b :: opened)) (h : c.InValue true modes (b :: opened) m) :
    (directive e opening).Alike x (directive e opening) c fun _ c' =>
      c'.InValue true modes opened m := by
  have hs := h.same_open hf hx
  unfold directive
  apply alike_peek_bind hs
  split
  · exact alike_reportFirst_bind
  rename_i hkeyword
  have h₁ := h.skip hf (by rw [Decidable.of_not_not hkeyword]; decide)
  apply alike_skip_bind hs
  refine (alike_directiveContent hx he _ hm hf h₁).seq fun content c₂ hw => ?_
  obtain ⟨hsome, h₂⟩ := hw
  obtain ⟨d, rfl⟩ := Option.isSome_iff_exists.mp hsome
  refine (alike_closeSequence hx hf h₂).seq fun strip c₃ h₃ => ?_
  exact alike_previousRange_bind h₃ (alike_pure h₃)

theorem alike_interpolation (hx : x.Line) (he : Carried x n e) (start : SourceRange) (hm : m ≤ n)
    (h : c.InValue true modes (b :: opened) m) :
    (interpolation e start opening).Alike x (interpolation e start opening) c fun _ c' =>
      c'.InValue true modes opened m := by
  have hf := Cursor.fits_cons false modes b opened
  unfold interpolation
  apply Alike.seq (P := fun _ c' => c'.InValue true modes opened m)
  · apply alike_withNewlines h
    refine (he hm hf (h.enter false).weaken).seq fun inner c₁ h₁ => ?_
    refine (alike_closeSequence hx hf h₁).seq fun strip c₂ h₂ => ?_
    exact alike_pure ⟨h₂.leave_inBody, h₂.leave⟩
  · exact fun _ c' hw => alike_previousRange_bind hw (alike_pure hw)

/-- A part of a template. Text stands where the template does, sequences where newlines do not
count. -/
theorem alike_templateStep (hx : x.Line) (he : Carried x n e) {closer : TokenKind}
    (hc : closer.isCloser) (start : SourceRange) (a : TemplateParts) (hm : m ≤ n)
    (hf : Cursor.Fits modes (b :: opened)) (h : c.InValue true modes (b :: opened) m) :
    (templateStep e closer start a).Alike x (templateStep e closer start a) c fun r c' =>
      Proceeds modes (b :: opened) opened m c' r.2 := by
  obtain ⟨j, rfl⟩ := h.bound_pos
  have hchunk (hk : c.peek.kind.Inner) : (chunk c.peek).Alike x (chunk c.peek) c.advance
      fun _ c' => c'.InValue true modes (b :: opened) j :=
    alike_chunk fun _ => h.pass hf hk
  unfold templateStep
  apply alike_read_bind (h.same_open hf hx)
  split
  · rename_i hk
    exact alike_pure (.done (h.closed hf (by rw [hk]; exact hc)))
  split
  · rename_i hk
    exact (hchunk (by rw [hk]; decide)).seq fun _ _ hw =>
      alike_pure (.more (Nat.lt_succ_self j) hw)
  · rename_i hk
    exact (hchunk (by rw [hk]; decide)).seq fun _ _ hw =>
      alike_pure (.more (Nat.lt_succ_self j) hw)
  · rename_i hk
    obtain ⟨us, -, h₁⟩ := h.opens hf (by rw [hk]; rfl)
    refine (alike_interpolation hx he start (by omega) h₁).seq fun part c₂ h₂ => ?_
    exact alike_pure (.more (Nat.lt_succ_self j) h₂)
  · rename_i hk
    obtain ⟨us, -, h₁⟩ := h.opens hf (by rw [hk]; rfl)
    apply Alike.seq (P := fun _ c' => c'.InValue true modes (b :: opened) j)
    · apply alike_withNewlines h₁
      refine (alike_directive hx he (by omega) (Cursor.fits_cons false modes _ _)
        (h₁.enter false)).mono fun _ c' hw => ?_
      exact ⟨hw.leave_inBody, hw.leave⟩
    · exact fun _ _ hw => alike_pure (.more (Nat.lt_succ_self j) hw)
  · exact alike_reportFirst_bind

theorem alike_templateExpr {parts : List TemplatePart} {stop range : SourceRange}
    {Q : Expr → Cursor → Prop} (h : ∀ e, Q e c) :
    (templateExpr parts stop range).Alike x (templateExpr parts stop range) c Q := by
  unfold templateExpr
  apply alike_tell_bind
  split
  · exact alike_pure (h _)
  · exact alike_pure (h _)

theorem alike_template (hx : x.Line) (he : Carried x n e) {closer : TokenKind}
    (hc : closer.isCloser) (start : SourceRange) (hm : m ≤ n)
    (hf : Cursor.Fits modes (b :: opened)) (h : c.InValue true modes (b :: opened) m) :
    (template e start closer).Alike x (template e start closer) c fun _ c' =>
      c'.InValue true modes opened m := by
  unfold template
  apply alike_peek_bind (h.same_open hf hx)
  apply Alike.seq (P := fun _ c' => c'.InValue true modes opened m)
  · exact alike_iterate hx _
      (fun a c j hj hc' => alike_templateStep hx he hc _ a (Nat.le_trans hj hm) hf hc') h
  · exact fun a c' hw => alike_previousRange_bind hw (alike_templateExpr fun _ => hw)

end HclSyntax.Parser
