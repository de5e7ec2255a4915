import HclSyntax.Proofs.Complete.Place
import HclSyntax.Proofs.Written.Suffix

namespace HclSyntax.Parser

variable {x : Surroundings} {c : Cursor} {nl : Bool} {modes : List Bool} {opened : List Bracket}
  {b : Bracket} {m n : Nat} {e : Parser Expr} {opening : Token}

theorem alike_reportComprehension_bind {α : Type} {p : ComprehensionProblem}
    {f : Unit → Parser α} {p' : Parser α} {Q : α → Cursor → Prop} :
    (reportComprehension opening p >>= f).Alike x p' c Q :=
  fun hd => absurd hd (List.cons_ne_nil _ _)

theorem inner_of_isKeyword {t : Token} {w : String} (h : t.isKeyword w) :
    t.kind.Inner ∧ t.kind ≠ .newline := by
  rw [Token.kind_of_isKeyword h]
  decide

theorem alike_inKeyword (hx : x.Line) (hf : Cursor.Fits modes (b :: opened)) (key : Option String)
    (value : String) (h : c.InValue true modes (b :: opened) m) :
    (inKeyword opening key value).Alike x (inKeyword opening key value) c fun names c' =>
      names.isSome ∧ c'.InValue true modes (b :: opened) m := by
  have hs := h.same_open hf hx
  unfold inKeyword
  apply alike_atKeyword_bind hs
  split
  · rename_i hin
    exact alike_skip_bind hs (alike_pure ⟨rfl, h.skip hf (inner_of_isKeyword hin).1⟩)
  · exact alike_reportComprehension_bind

theorem alike_binders (hx : x.Line) (hf : Cursor.Fits modes (b :: opened))
    (h : c.InValue true modes (b :: opened) m) :
    (binders opening).Alike x (binders opening) c fun names c' =>
      names.isSome ∧ c'.InValue true modes (b :: opened) m := by
  have hs := h.same_open hf hx
  unfold binders
  apply alike_peekKind_bind hs
  split
  · exact alike_reportComprehension_bind
  rename_i hfirst
  have h₁ := h.skip hf (by rw [Decidable.of_not_not hfirst]; decide)
  have hs₁ := h₁.same_open hf hx
  apply alike_read_bind hs
  apply alike_peekKind_bind hs₁
  split
  · exact alike_inKeyword hx hf _ _ h₁
  rename_i hcomma
  have h₂ := h₁.skip hf (by rw [Decidable.of_not_not hcomma]; decide)
  have hs₂ := h₂.same_open hf hx
  apply alike_skip_bind hs₁
  apply alike_peekKind_bind hs₂
  split
  · exact alike_reportComprehension_bind
  rename_i hsecond
  have h₃ := h₂.skip hf (by rw [Decidable.of_not_not hsecond]; decide)
  exact alike_read_bind hs₂ (alike_inKeyword hx hf _ _ h₃)

theorem alike_resultPair (hx : x.Line) (he : Carried x n e) (hm : m ≤ n)
    (hf : Cursor.Fits modes (b :: opened)) (h : c.InValue true modes (b :: opened) m) :
    (resultPair e).Alike x (resultPair e) c fun _ c' =>
      c'.InValue true modes (b :: opened) m := by
  unfold resultPair
  refine (he hm hf h.weaken).seq fun first c₁ h₁ => ?_
  have hs₁ := h₁.same_open hf hx
  apply alike_peekKind_bind hs₁
  split
  · rename_i harrow
    have h₂ := h₁.skip hf (by rw [harrow]; decide)
    apply alike_skip_bind hs₁
    exact (he hm hf h₂.weaken).seq fun value c₃ h₃ => alike_pure h₃
  · exact alike_pure h₁

theorem alike_filter (hx : x.Line) (he : Carried x n e) (hm : m ≤ n)
    (hf : Cursor.Fits modes (b :: opened)) (h : c.InValue true modes (b :: opened) m) :
    (filter e).Alike x (filter e) c fun _ c' => c'.InValue true modes (b :: opened) m := by
  have hs := h.same_open hf hx
  unfold filter
  apply alike_atKeyword_bind hs
  split
  · rename_i hif
    have h₁ := h.skip hf (inner_of_isKeyword hif).1
    apply alike_skip_bind hs
    exact (he hm hf h₁.weaken).seq fun condition c₂ h₂ => alike_pure h₂
  · exact alike_pure h

theorem alike_groupingEllipsis (hx : x.Line) (hf : Cursor.Fits modes (b :: opened))
    (h : c.InValue true modes (b :: opened) m) :
    groupingEllipsis.Alike x groupingEllipsis c fun _ c' =>
      c'.InValue true modes (b :: opened) m := by
  have hs := h.same_open hf hx
  unfold groupingEllipsis
  apply alike_peekKind_bind hs
  split
  · rename_i hk
    exact alike_read_bind hs (alike_pure (h.skip hf (by rw [hk]; decide)))
  · exact alike_pure h

theorem alike_closeComprehension (hx : x.Line) (ho : opening.kind.isOpener)
    (hf : Cursor.Fits modes (b :: opened)) (h : c.InValue true modes (b :: opened) m) :
    (closeComprehension opening).Alike x (closeComprehension opening) c fun _ c' =>
      c'.InValue true modes opened m := by
  have hs := h.same_open hf hx
  unfold closeComprehension
  apply alike_peekKind_bind hs
  split
  · rename_i hk
    have h₁ := h.closed hf (by rw [hk]; exact TokenKind.opposite_isCloser ho)
    exact alike_skip_bind hs (alike_previousRange h₁ h₁)
  · exact alike_reportComprehension_bind

theorem alike_checkResult {key : Option Expr} {value : Expr} {ellipsis : Option Token}
    {whole : SourceRange} {Q : Unit → Cursor → Prop} (h : Q () c) :
    (checkResult opening key value ellipsis whole).Alike x
      (checkResult opening key value ellipsis whole) c Q := by
  unfold checkResult
  split
  · split
    · exact alike_report
    · exact alike_pure h
  · cases key <;> cases ellipsis
    · exact alike_pure h
    · exact alike_report
    · exact alike_report_bind
    · exact alike_report_bind

theorem alike_comprehensionResult (hx : x.Line) (ho : opening.kind.isOpener) (he : Carried x n e)
    (keyVar : Option String) (valueVar : String) (collection : Expr) (hm : m ≤ n)
    (hf : Cursor.Fits modes (b :: opened)) (h : c.InValue true modes (b :: opened) m) :
    (comprehensionResult e opening keyVar valueVar collection).Alike x
      (comprehensionResult e opening keyVar valueVar collection) c
        fun _ c' => c'.InValue true modes opened m := by
  unfold comprehensionResult
  refine (alike_resultPair hx he hm hf h).track_seq fun pair c₁ h₁ => ?_
  refine (alike_groupingEllipsis hx hf h₁).seq fun ellipsis c₂ h₂ => ?_
  refine (alike_filter hx he hm hf h₂).track_seq fun condition c₃ h₃ => ?_
  refine (alike_closeComprehension hx ho hf h₃).seq fun close c₄ h₄ => ?_
  exact Alike.bind (alike_checkResult (alike_pure h₄))

theorem alike_comprehension (hx : x.Line) (ho : opening.kind.isOpener) (he : Carried x n e)
    (hm : m ≤ n) (hfor : c.peek.isKeyword "for") (h : c.InValue true modes (b :: opened) m) :
    (comprehension e opening).Alike x (comprehension e opening) c
      fun _ c' => c'.InValue true modes opened m := by
  have hf := Cursor.fits_cons false modes b opened
  have h₀ := h.enter false
  have hkind := inner_of_isKeyword hfor
  have h₁ := h₀.skip hf (by rw [h.inMode.peek_enter hkind.2 hkind.1.2]; exact hkind.1)
  unfold comprehension
  apply alike_withNewlines h
  apply alike_skip_bind (h₀.same_open hf hx)
  refine (alike_binders hx hf h₁).seq fun names c₂ hw => ?_
  obtain ⟨hsome, h₂⟩ := hw
  obtain ⟨⟨keyVar, valueVar⟩, rfl⟩ := Option.isSome_iff_exists.mp hsome
  refine (he hm hf h₂.weaken).track_seq fun collection c₃ h₃ => ?_
  have hs₃ := h₃.same_open hf hx
  apply alike_peekKind_bind hs₃
  split
  · exact alike_reportComprehension_bind
  rename_i hcolon
  have h₄ := h₃.skip hf (by rw [Decidable.of_not_not hcolon]; decide)
  apply alike_skip_bind hs₃
  exact (alike_comprehensionResult hx ho he _ _ _ hm hf h₄).mono fun _ _ hw =>
    ⟨hw.leave_inBody, hw.leave⟩

theorem alike_tupleStep (hx : x.Line) (he : Carried x n e) (items : List Expr) (hm : m ≤ n)
    (hf : Cursor.Fits modes (b :: opened)) (h : c.InValue true modes (b :: opened) m) :
    (tupleStep e opening items).Alike x (tupleStep e opening items) c fun r c' =>
      Proceeds modes (b :: opened) opened m c' r.2 := by
  have hs := h.same_open hf hx
  obtain ⟨j, rfl⟩ := h.bound_pos
  unfold tupleStep
  apply alike_peekKind_bind hs
  split
  · rename_i hk
    exact alike_skip_bind hs (alike_pure (.done (h.closed hf (by rw [hk]; rfl))))
  refine (he hm hf h.weaken).track_seq fun item c₁ h₁ => ?_
  have hs₁ := h₁.same_open hf hx
  apply alike_peek_bind hs₁
  split
  · rename_i hk
    exact alike_skip_bind hs₁ (alike_pure (.done (h₁.closed hf (by rw [hk]; rfl))))
  · rename_i hk
    have h₂ := h₁.pass hf (by rw [hk]; decide)
    exact alike_skip_bind hs₁ (alike_pure (.more (Nat.lt_succ_self j) h₂))
  · exact alike_reportFirst_bind

theorem alike_tuple (hx : x.Line) (ho : opening.kind = .openBracket) (he : Carried x n e)
    (hm : m ≤ n) (h : c.InValue true modes (b :: opened) m) :
    (tuple e opening).Alike x (tuple e opening) c fun _ c' => c'.InValue true modes opened m := by
  have hf := Cursor.fits_cons false modes b opened
  have h₀ := h.enter false
  unfold tuple
  apply alike_withNewlines h
  apply alike_atKeyword_bind (h₀.same_open hf hx)
  split
  · rename_i hfor
    have hopener : opening.kind.isOpener := by rw [ho]; rfl
    refine (alike_comprehension hx hopener he hm hfor h₀).mono fun _ _ hw => ?_
    exact ⟨hw.leave_inBody, hw.leave⟩
  · apply Alike.seq (P := fun _ c' => c'.InValue true (false :: modes) opened m)
    · exact alike_iterate hx []
        (fun items c j hj hc => alike_tupleStep hx he items (Nat.le_trans hj hm) hf hc) h₀
    · exact fun items c' hw =>
        alike_previousRange_bind hw (alike_pure ⟨hw.leave_inBody, hw.leave⟩)

theorem alike_objectSeparator (hx : x.Line) (hf : Cursor.Fits modes (b :: opened))
    (h : c.InValue true modes (b :: opened) m) :
    (objectSeparator opening).Alike x (objectSeparator opening) c fun more c' =>
      Proceeds modes (b :: opened) opened m c' more := by
  have hs := h.same_open hf hx
  obtain ⟨j, rfl⟩ := h.bound_pos
  have hmore (hk : c.peek.kind.Inner) :
      (skip >>= fun _ => pure true : Parser Bool).Alike x (skip >>= fun _ => pure true) c
        fun more c' => Proceeds modes (b :: opened) opened (j + 1) c' more :=
    alike_skip_bind hs (alike_pure (.more (Nat.lt_succ_self j) (h.pass hf hk)))
  unfold objectSeparator
  apply alike_peek_bind hs
  split
  · rename_i hk
    exact alike_skip_bind hs (alike_pure (.done (h.closed hf (by rw [hk]; rfl))))
  · rename_i hk
    exact hmore (by rw [hk]; decide)
  · rename_i hk
    exact hmore (by rw [hk]; decide)
  · exact alike_reportFirst_bind

theorem alike_objectItem (hx : x.Line) (he : Carried x n e) (items : List (Expr × Expr))
    (hm : m ≤ n) (hf : Cursor.Fits modes (b :: opened))
    (h : c.InValue true modes (b :: opened) m) :
    (objectItem e opening items).Alike x (objectItem e opening items) c fun r c' =>
      Proceeds modes (b :: opened) opened m c' r.2 := by
  unfold objectItem
  apply alike_peek_bind (h.same_open hf hx)
  refine (he hm hf h.weaken).track_seq fun key c₁ h₁ => ?_
  have hs₁ := h₁.same_open hf hx
  apply alike_peek_bind hs₁
  obtain ⟨j, rfl⟩ := h₁.bound_pos
  by_cases hk : c₁.peek.kind ≠ .assign ∧ c₁.peek.kind ≠ .colon
  · rw [if_pos hk]
    exact alike_reportFirst_bind
  rw [if_neg hk]
  have hinner : c₁.peek.kind.Inner := by
    by_cases ha : c₁.peek.kind = .assign
    · rw [ha]
      decide
    · rw [Decidable.of_not_not fun hc => hk ⟨ha, hc⟩]
      decide
  apply alike_skip_bind hs₁
  refine (he (by omega) hf (h₁.pass hf hinner).weaken).track_seq fun value c₂ h₂ => ?_
  exact (alike_objectSeparator hx hf (h₂.mono (Nat.le_succ j))).seq fun more c' hr => alike_pure hr

theorem alike_objectStep (hx : x.Line) (he : Carried x n e) (items : List (Expr × Expr))
    (hm : m ≤ n) (hf : Cursor.Fits modes (b :: opened))
    (h : c.InValue true modes (b :: opened) m) :
    (objectStep e opening items).Alike x (objectStep e opening items) c fun r c' =>
      Proceeds modes (b :: opened) opened m c' r.2 := by
  have hs := h.same_open hf hx
  unfold objectStep
  apply alike_peekKind_bind hs
  split
  · rename_i hk
    obtain ⟨j, rfl⟩ := h.bound_pos
    have h₁ := h.pass hf (by rw [hk]; decide)
    exact alike_skip_bind hs (alike_pure (.more (Nat.lt_succ_self j) h₁))
  · rename_i hk
    exact alike_skip_bind hs (alike_pure (.done (h.closed hf (by rw [hk]; rfl))))
  · exact alike_objectItem hx he items hm hf h

theorem alike_object (hx : x.Line) (ho : opening.kind = .openBrace) (he : Carried x n e)
    (hm : m ≤ n) (h : c.InValue true modes (b :: opened) m) :
    (object e opening).Alike x (object e opening) c fun _ c' =>
      c'.InValue true modes opened m := by
  have hf := Cursor.fits_cons true modes b opened
  have h₀ := h.enter true
  unfold object
  apply alike_withNewlines h
  apply alike_atKeyword_bind (h₀.same_open hf hx)
  split
  · rename_i hfor
    have hopener : opening.kind.isOpener := by rw [ho]; rfl
    refine (alike_comprehension hx hopener he hm hfor h₀).mono fun _ _ hw => ?_
    exact ⟨hw.leave_inBody, hw.leave⟩
  · apply Alike.seq (P := fun _ c' => c'.InValue true (true :: modes) opened m)
    · exact alike_iterate hx []
        (fun items c j hj hc => alike_objectStep hx he items (Nat.le_trans hj hm) hf hc) h₀
    · exact fun items c' hw =>
        alike_previousRange_bind hw (alike_pure ⟨hw.leave_inBody, hw.leave⟩)

theorem alike_argumentStep (hx : x.Line) {name : Token} (he : Carried x n e) (a : Arguments)
    (hm : m ≤ n) (hf : Cursor.Fits modes (b :: opened))
    (h : c.InValue true modes (b :: opened) m) :
    (argumentStep e name opening a).Alike x (argumentStep e name opening a) c fun r c' =>
      Proceeds modes (b :: opened) opened m c' r.2 := by
  have hs := h.same_open hf hx
  obtain ⟨j, rfl⟩ := h.bound_pos
  unfold argumentStep
  apply alike_peekKind_bind hs
  split
  · rename_i hk
    exact alike_skip_bind hs (alike_pure (.done (h.closed hf (by rw [hk]; rfl))))
  refine (he hm hf h.weaken).track_seq fun item c₁ h₁ => ?_
  apply alike_read_bind (h₁.same_open hf hx)
  split
  · rename_i hk
    exact alike_pure (.done (h₁.closed hf (by rw [hk]; rfl)))
  · rename_i hk
    exact alike_pure (.more (Nat.lt_succ_self j) (h₁.pass hf (by rw [hk]; decide)))
  · rename_i hk
    have h₂ := h₁.pass hf (by rw [hk]; decide)
    have hs₂ := h₂.same_open hf hx
    apply alike_peekKind_bind hs₂
    split
    · rename_i hclose
      have h₃ := (h₂.closed hf (by rw [hclose]; rfl)).mono (Nat.le_succ j)
      exact alike_skip_bind hs₂ (alike_pure (.done h₃))
    · exact alike_reportFirst_bind
  · exact alike_report_bind
  · exact alike_report_bind

theorem alike_call (hx : x.Line) (he : Carried x n e) (name : Token) (hm : m ≤ n)
    (h : c.InValue true modes (b :: opened) m) :
    (call e name opening).Alike x (call e name opening) c fun _ c' =>
      c'.InValue true modes opened m := by
  have hf := Cursor.fits_cons false modes b opened
  unfold call
  apply Alike.seq (P := fun _ c' => c'.InValue true modes opened m)
  · apply alike_withNewlines h
    apply Alike.mono (Q := fun _ c' => c'.InValue true (false :: modes) opened m)
    · exact alike_iterate hx _
        (fun a c j hj hc => alike_argumentStep hx he a (Nat.le_trans hj hm) hf hc) (h.enter false)
    · exact fun _ _ hw => ⟨hw.leave_inBody, hw.leave⟩
  · exact fun a c' hw => alike_previousRange_bind hw (alike_pure hw)

end HclSyntax.Parser
