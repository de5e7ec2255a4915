import HclSyntax.Parser.Expression
import HclSyntax.Proofs.Line.Collection

namespace HclSyntax.Parser

variable {x : Surroundings} {c : Cursor} {modes : List Bool} {closers : List TokenKind}
  {k : TokenKind} {m n : Nat} {e e' : Parser Expr} {opening : Token}

theorem containedTo_closeSequence (p : Problem) (start : SourceRange) :
    ContainedTo x .sequenceEnd n (closeSequence p start) (closeSequence p start) := by
  intro c modes closers m _ h
  have hs := Cursor.clear_cons modes .sequenceEnd closers
  unfold closeSequence
  apply agrees_peek_bind h hs
  split
  · obtain ⟨j, rfl⟩ := h.bound_pos
    exact agrees_skip_bind h hs (agrees_pure (h.shorten.mono (Nat.le_succ j)))
  · exact agrees_reportFirst_bind (agrees_skipPast rfl h fun _ hw => agrees_pure hw)

theorem containedTo_interpolation (he : Contained x n e e') (start : SourceRange) :
    ContainedTo x .sequenceEnd n (interpolation e start opening)
      (interpolation e' start opening) := by
  intro c modes closers m hm h
  unfold interpolation
  apply Agrees.seq (P := fun _ c' => c'.Within modes closers m)
  · apply agrees_withNewlines
    refine (he _ _ _ m hm (Cursor.clear_cons _ _ _) (h.enter false)).seq fun inner c₁ h₁ => ?_
    refine (containedTo_closeSequence _ _ _ _ closers m hm h₁).seq fun strip c₂ h₂ => ?_
    exact agrees_pure h₂.leave
  · exact fun _ _ hw => agrees_previousRange_bind hw (agrees_pure hw)

theorem agrees_templateStep (hk : k.isCloser) (he : Contained x n e e') (start : SourceRange)
    (a : TemplateParts) (hm : m ≤ n) (h : c.Within modes (k :: closers) m) :
    (templateStep e k start a).Agrees x (templateStep e' k start a) c fun r c' =>
      Continues modes (k :: closers) closers m c' r.2 := by
  have hs := Cursor.clear_cons modes k closers
  obtain ⟨heof, hdir⟩ := h.kind_ne hs
  obtain ⟨j, rfl⟩ := h.bound_pos
  have hchunk {t : Token} (hw : c.advance.Within modes (k :: closers) j) :
      (do
        let text ← chunk t
        let text := if a.strip then TemplatePart.trimStart text else text
        return (⟨a.parts ++ [.text text t.range], false⟩, true) :
          Parser (TemplateParts × Bool)).Agrees x (do
        let text ← chunk t
        let text := if a.strip then TemplatePart.trimStart text else text
        return (⟨a.parts ++ [.text text t.range], false⟩, true)) c.advance
          fun r c' => Continues modes (k :: closers) closers (j + 1) c' r.2 :=
    Agrees.seq (agrees_chunk fun _ => hw) fun _ _ hw =>
      agrees_pure (.more (Nat.lt_succ_self j) hw)
  unfold templateStep
  apply agrees_read_bind h hs
  split
  · exact agrees_pure (.done (h.shorten.mono (Nat.le_succ j)))
  rename_i hne
  have hw := h.pass_ne hne
  split
  · exact hchunk hw
  · exact hchunk hw
  · rename_i hi
    have hw := h.opened hs (by rw [hi]; rfl)
    rw [hi] at hw
    refine (containedTo_interpolation he _ _ _ _ j (by omega) hw).seq fun part c₁ h₁ => ?_
    exact agrees_pure (.more (Nat.lt_succ_self j) h₁)
  · rename_i hd
    exact absurd hd hdir
  · apply agrees_reportFirst_bind
    rw [if_neg heof]
    refine agrees_skipPast hk (hw.mono (Nat.le_succ j)) fun c' hw => ?_
    exact agrees_recover_bind (agrees_pure (.done hw))

theorem agrees_templateExpr {parts : List TemplatePart} {stop range : SourceRange}
    {Q : Expr → Cursor → Prop} (h : ∀ a, Q a c) :
    (templateExpr parts stop range).Agrees x (templateExpr parts stop range) c Q := by
  unfold templateExpr
  apply agrees_tell_bind
  split
  · exact agrees_pure (h _)
  · exact agrees_pure (h _)

theorem containedTo_template (hk : k.isCloser) (he : Contained x n e e') (start : SourceRange) :
    ContainedTo x k n (template e start k) (template e' start k) := by
  intro c modes closers m hm h
  unfold template
  apply agrees_peek_bind h (Cursor.clear_cons _ _ _)
  apply Agrees.seq (P := fun _ c' => c'.Within modes closers m)
  · exact agrees_iterate (fun _ => k :: closers) _
      (fun a c j hj hc => agrees_templateStep hk he _ a (Nat.le_trans hj hm) hc) h
  · exact fun a c' hw => agrees_previousRange_bind hw (agrees_templateExpr fun _ => hw)

variable {g g' : Grammar}

/-- All productions stay in a line with at most `n` tokens left. -/
def Confined (x : Surroundings) (n : Nat) (g g' : Grammar) : Prop :=
  ∀ p, Contained x n (g p) (g' p)

theorem agrees_nameOrCall (hg : Confined x n g g') (hm : m ≤ n) (hs : Cursor.Clear modes closers)
    (hk : c.peek.kind = .identifier) (h : c.Within modes closers (m + 1)) :
    (nameOrCall g).Agrees x (nameOrCall g') c fun _ c' => c'.Within modes closers m := by
  have hw := pass_of_passable h hs (by rw [hk]; decide)
  unfold nameOrCall
  apply agrees_read_bind h hs
  apply agrees_peekKind_bind hw hs
  split
  · rename_i ho
    obtain ⟨j, rfl⟩ := hw.bound_pos
    have h₂ := hw.opened hs (by rw [ho]; rfl)
    rw [ho] at h₂
    apply agrees_read_bind hw hs
    refine (containedTo_call (hg _) _ _ _ closers j (by omega) h₂).mono fun _ _ h => ?_
    exact h.mono (Nat.le_succ j)
  · exact agrees_pure hw

theorem agrees_unary (hg : Confined x n g g') (op : UnaryOp) (hm : m ≤ n)
    (hs : Cursor.Clear modes closers) (hk : Passable c.peek.kind)
    (h : c.Within modes closers (m + 1)) :
    (unary g op).Agrees x (unary g' op) c fun _ c' => c'.Within modes closers m := by
  unfold unary
  apply agrees_read_bind h hs
  refine (hg .operand _ modes closers m hm hs (pass_of_passable h hs hk)).seq fun _ _ hw => ?_
  exact agrees_pure hw

theorem agrees_parenthesized (hg : Confined x n g g') (hm : m ≤ n)
    (hs : Cursor.Clear modes closers) (hk : c.peek.kind = .openParen)
    (h : c.Within modes closers (m + 1)) :
    (parenthesized g).Agrees x (parenthesized g') c fun _ c' => c'.Within modes closers m := by
  have hw := h.opened hs (by rw [hk]; rfl)
  rw [hk] at hw
  have hs' := Cursor.clear_cons (false :: modes) .closeParen closers
  unfold parenthesized
  apply agrees_read_bind h hs
  apply agrees_withNewlines
  refine (hg _ _ _ _ m hm hs' (hw.enter false)).observe_seq fun inner reported c₁ h₁ => ?_
  dsimp only
  split
  · exact agrees_skipPast rfl h₁ fun _ hw => agrees_pure hw.leave
  · obtain ⟨j, rfl⟩ := h₁.bound_pos
    -- the token that is passed for the parenthesis takes at most its place
    have hskip : (closeParenthesis c.peek).Agrees x (closeParenthesis c.peek) c₁
        fun _ c' => c'.Within (false :: modes) closers (j + 1) := by
      have hw := h₁.shorten.mono (Nat.le_succ j)
      unfold closeParenthesis
      apply agrees_peek_bind h₁ hs'
      split
      · exact agrees_report_bind (agrees_recover_bind (agrees_skip h₁ hs' hw))
      · exact agrees_skip h₁ hs' hw
    exact hskip.seq fun _ _ hw => agrees_pure hw.leave

theorem contained_term (hg : Confined x n g g') : Contained x (n + 1) (term g) (term g') := by
  intro c modes closers m hm hs h
  obtain ⟨j, rfl⟩ := h.bound_pos
  have hj : j ≤ n := by omega
  have hlonger {p p' : Parser Expr} (hp : p.Agrees x p' c fun _ c' => c'.Within modes closers j) :
      p.Agrees x p' c fun _ c' => c'.Within modes closers (j + 1) :=
    hp.mono fun _ _ hw => hw.mono (Nat.le_succ j)
  have hopen {p p' : Parser Expr} {o k : TokenKind} (hk : c.peek.kind = o)
      (ho : o.isOpener = true) (hc : o.opposite = k) (hp : ContainedTo x k n p p') :
      (skip >>= fun _ => p).Agrees x (skip >>= fun _ => p') c
        fun _ c' => c'.Within modes closers (j + 1) := by
    have hw := h.opened hs (by rw [hk, ho])
    rw [hk, hc] at hw
    apply agrees_skip_bind h hs
    exact (hp _ modes closers j hj hw).mono fun _ _ hw => hw.mono (Nat.le_succ j)
  unfold term
  apply agrees_peek_bind h hs
  split
  · rename_i hk
    exact hlonger (agrees_parenthesized hg hj hs hk h)
  · rename_i hk
    have hw := pass_of_passable h hs (by rw [hk]; decide)
    apply agrees_skip_bind h hs
    apply Agrees.seq (P := fun _ c' => c'.Within modes closers j) (agrees_numberValue fun _ => hw)
    exact fun _ _ hw => agrees_pure (hw.mono (Nat.le_succ j))
  · rename_i hk
    exact hlonger (agrees_nameOrCall hg hj hs hk h)
  · rename_i hk
    refine hopen hk rfl rfl ?_
    unfold quotedTemplate
    rw [hk]
    exact containedTo_template rfl (hg _) _
  · rename_i hk
    refine hopen hk rfl rfl ?_
    unfold quotedTemplate
    rw [hk]
    exact containedTo_template rfl (hg _) _
  · rename_i hk
    exact hlonger (agrees_unary hg .negate hj hs (by rw [hk]; decide) h)
  · rename_i hk
    exact hlonger (agrees_unary hg .not hj hs (by rw [hk]; decide) h)
  · rename_i hk
    exact hopen hk rfl rfl (containedTo_tuple hk (hg _))
  · rename_i hk
    exact hopen hk rfl rfl (containedTo_object hk (hg _))
  · exact contained_invalid c modes closers _ (Nat.le_refl _) hs h

theorem contained_suffixes (hg : Confined x n g g') (base : Expr) :
    Contained x (n + 1) (suffixes g base) (suffixes g' base) := by
  intro c modes closers m hm hs h
  unfold suffixes
  exact agrees_iterate (fun _ => closers) base (fun base c j hj hc =>
    agrees_suffixStep (hg .expression) (fun each => hg (.suffixes each)) base (by omega) hs hc) h

theorem contained_operand (hg : Confined x n g g') :
    Contained x (n + 1) (operand g) (operand g') := by
  intro c modes closers m hm hs h
  unfold operand
  refine (contained_term hg c modes closers m hm hs h).seq fun base c' hw => ?_
  exact contained_suffixes hg base c' modes closers m hm hs hw

/-- Productions stay in a line if those inside them do in a line with one token less. -/
theorem confined_production (hg : Confined x n g g') :
    Confined x (n + 1) (production g) (production g') := by
  intro p
  cases p with
  | expression => exact contained_conditional (hg .expression) (contained_operand hg)
  | operand => exact contained_operand hg
  | suffixes base => exact contained_suffixes hg base

theorem confined_grammar (n : Nat) :
    ∀ d d', n ≤ d → n ≤ d' → Confined x n (grammar d) (grammar d') := by
  -- on the tokens that are left in the line, which both bounds on the depth exceed
  induction n with
  | zero =>
    intro d d' _ _ p c modes closers m hm _ h
    obtain ⟨j, rfl⟩ := h.bound_pos
    omega
  | succ n ih =>
    intro d d' hd hd'
    obtain ⟨d, rfl⟩ : ∃ k, d = k + 1 := ⟨d - 1, by omega⟩
    obtain ⟨d', rfl⟩ : ∃ k, d' = k + 1 := ⟨d' - 1, by omega⟩
    exact confined_production (ih d d' (by omega) (by omega))

theorem remaining_widen (c : Cursor) (x : Surroundings) : c.remaining ≤ (c.widen x).remaining := by
  simp [Cursor.remaining, Cursor.widen]

/-- An expression is the same in a line and inside of more, and stays in the line. -/
theorem contained_expression : Contained x n expression expression := by
  intro c modes closers m _ hs h
  have hd : c.remaining ≤ (c.widen x).remaining + 1 := Nat.le_succ_of_le (remaining_widen c x)
  have hg := confined_grammar (x := x) c.remaining _ _ (Nat.le_succ c.remaining) hd
  have he := hg .expression c modes closers c.remaining (Nat.le_refl _) hs h.exact
  have he' : expression.Agrees x expression c fun _ c' => c'.Within modes closers c.remaining :=
    he.congr (fun _ => rfl) fun _ => rfl
  exact he'.mono fun _ _ hw => hw.mono h.remaining_le

end HclSyntax.Parser
