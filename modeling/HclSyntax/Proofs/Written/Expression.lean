import HclSyntax.Proofs.Termination
import HclSyntax.Proofs.Written.Collection
import HclSyntax.Proofs.Written.Quoted

namespace HclSyntax.Parser

variable {x : Surroundings} {c : Cursor} {modes : List Bool} {opened : List Bracket} {b : Bracket}
  {m n : Nat} {e p : Parser Expr} {g : Grammar}

/-- The productions of a grammar are the same in the body as long as at most `n` tokens are left. -/
structure Carries (x : Surroundings) (n : Nat) (g : Grammar) : Prop where
  expression : Carried x n (g .expression)
  operand : Carried x n (g .operand)
  suffixes (e : Expr) : Continued x n (g (.suffixes e))

theorem alike_nameOrCall (hx : x.Line) (hg : Carries x n g) (hm : m ≤ n)
    (hf : Cursor.Fits modes opened) (hk : c.peek.kind = .identifier)
    (h : c.InValue false modes opened (m + 1)) :
    (nameOrCall g).Alike x (nameOrCall g) c fun _ c' => c'.InValue true modes opened m := by
  have h₁ := h.pass hf (by rw [hk]; decide)
  unfold nameOrCall
  apply alike_read_bind (h.same hf hx (by rw [hk]; decide))
  refine alike_peekKind_end hx hf h₁ (fun hs hne => ?_) (alike_pure h₁)
  split
  · rename_i hopen
    obtain ⟨j, rfl⟩ := h₁.bound_pos
    obtain ⟨us, -, h₂⟩ := h₁.opens hf (by rw [hopen]; rfl)
    apply alike_read_bind hs
    exact (alike_call hx hg.expression _ (by omega) h₂).mono fun _ _ hw =>
      hw.mono (Nat.le_succ j)
  · exact alike_pure h₁

theorem alike_unary (hx : x.Line) (hg : Carries x n g) (op : UnaryOp) (hm : m ≤ n)
    (hf : Cursor.Fits modes opened) (hk : c.peek.kind.Inner)
    (h : c.InValue false modes opened (m + 1)) :
    (unary g op).Alike x (unary g op) c fun _ c' => c'.InValue true modes opened m := by
  unfold unary
  apply alike_read_bind (h.same hf hx hk.2)
  exact (hg.operand hm hf (h.pass hf hk).weaken).seq fun _ _ hw => alike_pure hw

theorem alike_closeParenthesis (hx : x.Line) {opening : Token}
    (hf : Cursor.Fits modes (b :: opened)) (h : c.InValue true modes (b :: opened) m) :
    (closeParenthesis opening).Alike x (closeParenthesis opening) c fun _ c' =>
      c'.InValue true modes opened m := by
  have hs := h.same_open hf hx
  unfold closeParenthesis
  apply alike_peek_bind hs
  by_cases hk : c.peek.kind = .closeParen
  · rw [if_neg (not_not_intro hk)]
    exact alike_skip hs (h.closed hf (by rw [hk]; rfl))
  · rw [if_pos hk]
    exact alike_report_bind

theorem alike_parenthesized (hx : x.Line) (hg : Carries x n g) (hm : m ≤ n)
    (hf : Cursor.Fits modes opened) (hk : c.peek.kind = .openParen)
    (h : c.InValue false modes opened (m + 1)) :
    (parenthesized g).Alike x (parenthesized g) c fun _ c' => c'.InValue true modes opened m := by
  obtain ⟨us, -, h₁⟩ := h.opens hf (by rw [hk]; rfl)
  have hf₁ := Cursor.fits_cons false modes (c.peek.bracket us) opened
  unfold parenthesized
  apply alike_read_bind (h.same hf hx (by rw [hk]; decide))
  apply alike_withNewlines h₁
  refine (hg.expression hm hf₁ (h₁.enter false).weaken).observe_seq fun inner c₂ h₂ => ?_
  refine (alike_closeParenthesis hx hf₁ h₂).seq fun _ c₃ h₃ => ?_
  exact alike_pure ⟨h₃.leave_inBody, h₃.leave⟩

/-- Where a term should be and the value ends, there is a report. -/
theorem alike_term_end {p : Parser Expr} {Q : Expr → Cursor → Prop} (hk : c.peek.kind = .eof) :
    (term g).Alike x p c Q := by
  unfold term
  apply alike_peek_end
  simp only [hk]
  exact alike_invalid

/-- A template in quotes stands where newlines count as around it, and shelters none. -/
theorem alike_quotedTemplate (hx : x.Line) (hg : Carries x n g) (hm : m ≤ n)
    (hf : Cursor.Fits modes opened) (hk : c.peek.kind = .openQuote ∨ c.peek.kind = .openHeredoc)
    (h : c.InValue false modes opened (m + 1)) :
    (skip >>= fun _ => quotedTemplate (g .expression) c.peek).Alike x
      (skip >>= fun _ => quotedTemplate (g .expression) c.peek) c fun _ c' =>
        c'.InValue true modes opened m := by
  have ho : c.peek.kind.isOpener := by rcases hk with hk | hk <;> rw [hk] <;> rfl
  obtain ⟨us, -, h₁⟩ := h.opens hf ho
  apply alike_skip_bind (h.same hf hx (by rcases hk with hk | hk <;> rw [hk] <;> decide))
  refine alike_template hx hg.expression (TokenKind.opposite_isCloser ho) _ hm ?_ h₁
  refine hf.open fun _ => ?_
  rcases hk with hk | hk <;> simp [Token.bracket, hk]

theorem carried_term (hx : x.Line) (hg : Carries x n g) : Carried x (n + 1) (term g) := by
  intro c modes opened m hm hf h
  by_cases hend : c.peek.kind = .eof
  · exact alike_term_end hend
  have hs := h.same hf hx hend
  obtain ⟨j, rfl⟩ := h.bound_pos
  have hj : j ≤ n := by omega
  unfold term
  apply alike_peek_bind hs
  refine Alike.mono (Q := fun _ c' => c'.InValue true modes opened j) ?_
    fun _ _ hw => hw.mono (Nat.le_succ j)
  split
  · rename_i hk
    exact alike_parenthesized hx hg hj hf hk h
  · rename_i hk
    have h₁ := h.pass hf (by rw [hk]; decide)
    apply alike_skip_bind hs
    exact (alike_numberValue fun _ => h₁).seq fun _ _ hw => alike_pure hw
  · rename_i hk
    exact alike_nameOrCall hx hg hj hf hk h
  · rename_i hk
    exact alike_quotedTemplate hx hg hj hf (.inl hk) h
  · rename_i hk
    exact alike_quotedTemplate hx hg hj hf (.inr hk) h
  · rename_i hk
    exact alike_unary hx hg _ hj hf (by rw [hk]; decide) h
  · rename_i hk
    exact alike_unary hx hg _ hj hf (by rw [hk]; decide) h
  · rename_i hk
    obtain ⟨us, -, h₁⟩ := h.opens hf (by rw [hk]; rfl)
    exact alike_skip_bind hs (alike_tuple hx hk hg.expression hj h₁)
  · rename_i hk
    obtain ⟨us, -, h₁⟩ := h.opens hf (by rw [hk]; rfl)
    exact alike_skip_bind hs (alike_object hx hk hg.expression hj h₁)
  · exact alike_invalid

theorem continued_suffixes (hx : x.Line) (hg : Carries x n g) (e : Expr) :
    Continued x (n + 1) (suffixes g e) := by
  intro c modes opened m hm hf h
  exact alike_iterate hx e (fun base c j hj hc =>
    alike_suffixStep hx hg.expression hg.suffixes base (Nat.le_trans hj hm) hf hc) h

theorem carried_operand (hx : x.Line) (hg : Carries x n g) : Carried x (n + 1) (operand g) := by
  intro c modes opened m hm hf h
  unfold operand
  exact (carried_term hx hg hm hf h).seq fun base c' h' => continued_suffixes hx hg base hm hf h'

theorem alike_binary_end (hp : p.Alike x p c fun _ _ => False) :
    (binary p).Alike x (binary p) c fun _ _ => False := by
  unfold binary
  induction BinaryOp.levels with
  | nil => exact hp
  | cons level levels ih => exact ih.track_seq fun _ _ hno => hno.elim

theorem carried_conditional (hx : x.Line) (hg : Carries x n g) :
    Carried x (n + 1) (conditional (g .expression) (operand g)) := by
  intro c modes opened m hm hf h
  unfold conditional
  by_cases hend : c.peek.kind = .eof
  · -- where the value ends the two begin with different tokens, but then there is no operand
    have hterm := alike_term_end (g := g) (p := term g) (x := x) (Q := fun _ _ => False) hend
    have hoperand : (operand g).Alike x (operand g) c fun _ _ => False :=
      hterm.seq fun _ _ hno => hno.elim
    exact alike_peek_end ((alike_binary_end hoperand).track.never_bind fun _ _ hno => hno.1)
  apply alike_peek_bind (h.same hf hx hend)
  refine (carried_binary hx (carried_operand hx hg) hm hf h).track_seq fun condition c₁ h₁ => ?_
  refine alike_peekKind_end hx hf h₁ (fun hs₁ _ => ?_) (alike_pure h₁)
  split
  · exact alike_pure h₁
  rename_i hquestion
  obtain ⟨j, rfl⟩ := h₁.bound_pos
  have h₂ := h₁.pass hf (by rw [Decidable.of_not_not hquestion]; decide)
  apply alike_skip_bind hs₁
  refine (hg.expression (by omega) hf h₂.weaken).track_seq fun ifTrue c₃ h₃ => ?_
  by_cases hend₃ : c₃.peek.kind = .eof
  · apply alike_peek_end
    simp only [hend₃]
    exact alike_report_bind
  have hs₃ := h₃.same hf hx hend₃
  apply alike_peek_bind hs₃
  split
  · exact alike_report_bind
  rename_i hcolon
  obtain ⟨i, rfl⟩ := h₃.bound_pos
  have h₄ := h₃.pass hf (by rw [Decidable.of_not_not hcolon]; decide)
  apply alike_skip_bind hs₃
  refine (hg.expression (by omega) hf h₄.weaken).track_seq fun ifFalse c₅ h₅ => ?_
  exact alike_pure (h₅.mono (by omega))

theorem carries_production (hx : x.Line) (hg : Carries x n g) :
    Carries x (n + 1) (production g) where
  expression := carried_conditional hx hg
  operand := carried_operand hx hg
  suffixes := continued_suffixes hx hg

/-- With more tokens left than are allowed nothing is said, and without any nothing is left. -/
theorem carries_unbounded (hx : x.Line) (n : Nat) : Carries x n unbounded := by
  induction n with
  | zero =>
    refine ⟨fun hm _ h => ?_, fun hm _ h => ?_, fun _ {_ _ _ _} hm _ h => ?_⟩ <;>
    · obtain ⟨j, rfl⟩ := h.bound_pos
      omega
  | succ n ih =>
    have hp := carries_production hx ih
    have hsolves {i : Production} {c : Cursor} {begun : Bool} {modes : List Bool}
        {opened : List Bracket} {m : Nat} {Q : Expr → Cursor → Prop}
        (h : c.InValue begun modes opened m)
        (ha : (production unbounded i).Alike x (production unbounded i) c Q) :
        (unbounded i).Alike x (unbounded i) c Q :=
      ha.congr (settles_production.solves i ⟨c, false⟩ h.ends)
        (settles_production.solves i ⟨c.inBody x, false⟩ hx.ends)
    exact ⟨fun hm hf h => hsolves h (hp.expression hm hf h),
      fun hm hf h => hsolves h (hp.operand hm hf h),
      fun e _ _ _ _ hm hf h => hsolves h (hp.suffixes e hm hf h)⟩

theorem carried_expression (hx : x.Line) (n : Nat) : Carried x n expression :=
  (carries_unbounded hx n).expression

end HclSyntax.Parser
