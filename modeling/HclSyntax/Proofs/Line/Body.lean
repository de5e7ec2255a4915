import HclSyntax.Parser.Body
import HclSyntax.Proofs.Line.Expression

namespace HclSyntax.Parser

variable {x : Surroundings} {c : Cursor} {modes : List Bool} {closers : List TokenKind} {m n : Nat}

theorem agrees_endOfLine (name : Token) (problem : TokenKind → Problem)
    (hs : modes.headD true = true) (h : c.Within modes closers m) :
    (endOfLine name problem).Agrees x (endOfLine name problem) c fun _ c' => c'.Behind modes := by
  unfold endOfLine Watch.endOfLine
  apply agrees_peek_bind h (.inl hs)
  split
  · rename_i hk
    exact agrees_skip h (.inl hs) (h.newline (.inl hs) hk)
  · rename_i hk
    exact absurd hk (h.kind_ne (.inl hs)).1
  · exact agrees_reportFirst_bind (agrees_skipItem hs h)

/-- In a block on a single line the value ends in front of the brace. -/
theorem contained_attributeValue (name equals : Token) :
    Contained x n (attributeValue name equals true) (attributeValue name equals true) := by
  intro c modes closers m _ hs h
  unfold attributeValue Watch.attributeValue
  refine (contained_expression c modes closers m (Nat.le_refl m) hs h).track_seq fun e lost c' hw => ?_
  exact agrees_previousRange_bind hw (agrees_pure hw)

theorem agrees_attributeValue (name equals : Token) (hs : modes.headD true = true)
    (h : c.Within modes closers m) :
    (attributeValue name equals false).Agrees x (attributeValue name equals false) c
      fun _ c' => c'.Behind modes := by
  unfold attributeValue Watch.attributeValue
  refine (contained_expression c modes closers m (Nat.le_refl m) (.inl hs) h).track_seq
    fun e lost c' hw => ?_
  apply agrees_previousRange_bind hw
  simp only [Bool.false_eq_true, if_false]
  split
  · refine (agrees_skipItem hs hw).seq fun _ _ hend => ?_
    exact agrees_pure hend
  · refine (agrees_endOfLine name _ hs hw).seq fun _ _ hend => ?_
    exact agrees_pure hend

theorem containedTo_closeSingleLine :
    ContainedTo x .closeBrace n closeSingleLine closeSingleLine := by
  intro c modes closers m hm h
  have hs := Cursor.clear_cons modes .closeBrace closers
  unfold closeSingleLine
  apply agrees_peek_bind h hs
  split
  · obtain ⟨j, rfl⟩ := h.bound_pos
    exact agrees_skip h hs (h.shorten.mono (Nat.le_succ j))
  · have hskip := containedTo_skipPast (x := x) (n := m) rfl c modes closers m (Nat.le_refl m) h
    split
    · exact agrees_report_bind hskip
    · exact agrees_report_bind hskip
    · exact agrees_reportFirst_bind hskip

theorem agrees_singleLineBody (hk : c.peek.kind ≠ .closeBrace)
    (h : c.Within modes (.closeBrace :: closers) m) :
    singleLineBody.Agrees x singleLineBody c fun _ c' => c'.Within modes closers m := by
  have hs := Cursor.clear_cons modes .closeBrace closers
  obtain ⟨j, rfl⟩ := h.bound_pos
  have hw := h.pass_ne hk
  have hgive {o : Option Body} {c' : Cursor} {i : Nat} (hi : i ≤ j + 1)
      (h' : c'.Within modes (.closeBrace :: closers) i) :
      (skipPast .closeBrace >>= fun _ => pure o).Agrees x
        (skipPast .closeBrace >>= fun _ => pure o) c' fun _ c' => c'.Within modes closers (j + 1) :=
    agrees_skipPast rfl h' fun _ hw => agrees_pure (hw.mono hi)
  unfold singleLineBody Watch.singleLineBody
  apply agrees_read_bind h hs
  split
  · exact agrees_reportFirst_bind (hgive (Nat.le_succ j) hw)
  apply agrees_peek_bind hw hs
  split
  · rename_i ha
    obtain ⟨i, rfl⟩ := hw.bound_pos
    have h₂ := hw.pass_ne (by rw [ha]; decide)
    apply agrees_skip_bind hw hs
    refine (contained_attributeValue _ _ _ modes _ i (Nat.le_refl i) hs h₂).seq fun a c₃ h₃ => ?_
    refine (containedTo_closeSingleLine _ modes closers i (Nat.le_refl i) h₃).seq fun _ c₄ h₄ => ?_
    exact agrees_pure (h₄.mono (by omega))
  · exact agrees_report_bind (hgive (Nat.le_succ j) hw)
  · exact agrees_report_bind (hgive (Nat.le_succ j) hw)
  · exact agrees_report_bind (hgive (Nat.le_succ j) hw)
  · exact agrees_report_bind (hgive (Nat.le_succ j) hw)

/-- In a line, a body over several lines can only be an empty one. -/
theorem agrees_emptyBody (d d' : Nat) (hk : c.peek.kind = .closeBrace)
    (h : c.Within modes (.closeBrace :: closers) m) :
    (bodyFor (d + 1) .closeBrace).Agrees x (bodyFor (d' + 1) .closeBrace) c
      fun _ c' => c'.Within modes closers m := by
  have hs := Cursor.clear_cons modes .closeBrace closers
  have hloop (start : SourceRange) (items : Items) :
      (iterate (bodyStep (bodyFor d .closeBrace) .closeBrace start) items).Agrees x
        (iterate (bodyStep (bodyFor d' .closeBrace) .closeBrace start) items) c
        fun _ c' => c'.Within modes closers m := by
    apply Agrees.iterate (I := fun m' _ c' => c' = c ∧ m' = c.remaining) ?_ ⟨rfl, rfl⟩
    rintro m' items c' ⟨rfl, -⟩
    obtain ⟨j, rfl⟩ := h.bound_pos
    unfold bodyStep Watch.bodyStep
    apply agrees_read_bind h hs
    rw [if_pos hk, if_pos hk]
    exact agrees_pure (h.shorten.mono (Nat.le_succ j))
  unfold bodyFor Watch.bodyFor Watch.bodyWith
  apply agrees_previousRange_bind h
  exact (hloop _ _).seq fun _ _ hw => agrees_pure hw

theorem agrees_blockBody (d d' : Nat) (h : c.Within modes (.closeBrace :: closers) m) :
    (blockBody (bodyFor (d + 1) .closeBrace)).Agrees x
      (blockBody (bodyFor (d' + 1) .closeBrace)) c fun _ c' => c'.Within modes closers m := by
  have hs := Cursor.clear_cons modes .closeBrace closers
  unfold blockBody Watch.blockBody
  apply agrees_peekKind_bind h hs
  split
  · rename_i hk
    exact absurd hk h.kind_ne_newline
  · rename_i hk
    exact absurd hk (h.kind_ne hs).1
  · rename_i hk
    exact (agrees_emptyBody d d' hk h).seq fun _ _ hw => agrees_pure hw
  · rename_i hk
    exact agrees_singleLineBody hk h

/-- Behind a header the body is next, or the line is over. -/
structure HeaderEnd (modes : List Bool) (m : Nat) (h : BlockHeader) (c : Cursor) : Prop where
  ended : h.brace = none → c.Behind modes
  within : ∀ brace, h.brace = some brace → c.Within modes [.closeBrace] m

theorem agrees_headerStep (name : Token) (header : BlockHeader) (hs : modes.headD true = true)
    (hb : header.brace = none) (hm : m ≤ n) (h : c.Within modes [] m) :
    (headerStep name header).Agrees x (headerStep name header) c fun r c' =>
      if r.2 then ∃ j < m, r.1.brace = none ∧ c'.Within modes [] j else HeaderEnd modes n r.1 c' := by
  obtain ⟨j, rfl⟩ := h.bound_pos
  unfold headerStep Watch.headerStep
  apply agrees_peek_bind h (.inl hs)
  split
  · rename_i hk
    have hw := h.opened (.inl hs) (by rw [hk]; rfl)
    rw [hk] at hw
    apply agrees_skip_bind h (.inl hs)
    exact agrees_pure ⟨fun hn => (by cases hn), fun _ _ => hw.mono (by omega)⟩
  · rename_i hk
    have hw := h.opened (.inl hs) (by rw [hk]; rfl)
    rw [hk] at hw
    apply agrees_skip_bind h (.inl hs)
    refine (containedTo_quotedString _ _ modes [] j (Nat.le_refl j) hw).observe_seq
      fun label reported c₂ h₂ => ?_
    dsimp only
    cases reported with
    | true =>
      refine (agrees_skipItem hs h₂).seq fun _ _ hend => ?_
      exact agrees_pure ⟨fun _ => hend, fun _ hn => (by cases hn)⟩
    | false => exact agrees_pure ⟨j, Nat.lt_succ_self j, rfl, h₂⟩
  · apply Agrees.seq (P := fun _ c' => c' = c)
    · unfold reportHeader
      split
      · exact agrees_report rfl
      · exact agrees_report rfl
      · exact agrees_reportFirst rfl
    · rintro _ _ rfl
      refine (agrees_skipItem hs h).seq fun _ _ hend => ?_
      exact agrees_pure ⟨fun _ => hend, fun brace hn => by simp [hb] at hn⟩

theorem agrees_block (d d' : Nat) (name : Token) (hs : modes.headD true = true)
    (h : c.Within modes [] m) :
    (block (bodyFor (d + 1) .closeBrace) name).Agrees x
      (block (bodyFor (d' + 1) .closeBrace) name) c fun _ c' => c'.Behind modes := by
  unfold block Watch.block
  apply Agrees.seq (P := HeaderEnd modes m)
  · refine Agrees.iterate
      (I := fun j header c => j ≤ m ∧ header.brace = none ∧ c.Within modes [] j) ?_
      ⟨h.remaining_le, rfl, h.exact⟩
    rintro j header c ⟨hj, hb, hc⟩
    refine (agrees_headerStep name header hs hb hj hc).mono fun r c' hr => ?_
    split
    · rename_i hmore
      rw [if_pos hmore] at hr
      obtain ⟨i, hi, hn, hw⟩ := hr
      exact ⟨i, hi, by omega, hn, hw⟩
    · rename_i hmore
      rwa [if_neg hmore] at hr
  · rintro header c₁ ⟨hended, hwithin⟩
    split
    · rename_i hn
      exact agrees_pure (hended hn)
    · rename_i brace hb
      refine (agrees_blockBody d d' (hwithin brace hb)).seq fun body c₂ h₂ => ?_
      apply agrees_previousRange_bind h₂
      exact (agrees_endOfLine name _ hs h₂).seq fun _ _ hend => agrees_pure hend

end HclSyntax.Parser
