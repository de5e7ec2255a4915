import HclSyntax.Parser.Operator
import HclSyntax.Parser.Path
import HclSyntax.Proofs.Line.Resync

namespace HclSyntax.Parser

variable {x : Surroundings} {c : Cursor} {modes : List Bool} {closers : List TokenKind} {m n : Nat}
  {e e' : Parser Expr}

theorem contained_invalid : Contained x n invalid invalid := by
  intro c modes closers m _ hs h
  unfold invalid
  apply agrees_peek_bind h hs
  exact agrees_reportFirst_bind (agrees_recover_bind (agrees_pure h))

/-- A kind that can be passed anywhere in a line: it ends nothing. -/
def Passable (k : TokenKind) : Prop := k ≠ .newline ∧ k.isCloser = false

instance : DecidablePred Passable := fun k =>
  inferInstanceAs (Decidable (k ≠ .newline ∧ k.isCloser = false))

theorem pass_of_passable (h : c.Within modes closers (m + 1)) (hs : Cursor.Clear modes closers)
    (hk : Passable c.peek.kind) : c.advance.Within modes closers m := h.pass hs hk.1 hk.2

theorem agrees_operatorStep {level : Level} (hl : ∀ o ∈ level, Passable o.1)
    (he : Contained x n e e') (lhs : Expr) (hm : m ≤ n) (hs : Cursor.Clear modes closers)
    (h : c.Within modes closers m) :
    (operatorStep e level lhs).Agrees x (operatorStep e' level lhs) c fun r c' =>
      Continues modes closers closers m c' r.2 := by
  obtain ⟨j, rfl⟩ := h.bound_pos
  unfold operatorStep
  apply agrees_peekKind_bind h hs
  split
  · exact agrees_pure (.done h)
  rename_i op hop
  have hk : Passable c.peek.kind := by
    obtain ⟨before, after, rfl, -⟩ := List.lookup_eq_some_iff.mp hop
    exact hl (c.peek.kind, op) (by simp)
  have hw := pass_of_passable h hs hk
  apply agrees_skip_bind h hs
  refine (he _ _ _ j (by omega) hs hw).track_seq fun rhs lost c' hw => ?_
  dsimp only
  split
  · exact agrees_pure (.done (hw.mono (Nat.le_succ j)))
  · exact agrees_pure (.more (Nat.lt_succ_self j) hw)

theorem contained_operators {level : Level} (hl : ∀ o ∈ level, Passable o.1)
    (he : Contained x n e e') : Contained x n (operators level e) (operators level e') := by
  intro c modes closers m hm hs h
  unfold operators
  refine (he c modes closers m hm hs h).track_seq fun lhs lost c' h' => ?_
  dsimp only
  split
  · exact agrees_pure h'
  · exact agrees_iterate (fun _ => closers) lhs
      (fun lhs c j hj hc => agrees_operatorStep hl he lhs (by omega) hs hc) h'

theorem contained_levels {levels : List Level} (hl : ∀ level ∈ levels, ∀ o ∈ level, Passable o.1)
    (he : Contained x n e e') :
    Contained x n (levels.foldr operators e) (levels.foldr operators e') := by
  induction levels with
  | nil => exact he
  | cons level levels ih =>
    exact contained_operators (hl level (by simp)) (ih fun l h => hl l (by simp [h]))

theorem contained_binary (he : Contained x n e e') : Contained x n (binary e) (binary e') :=
  contained_levels (by decide) he

variable {operand operand' : Parser Expr}

/-- Of a conditional only what follows a token is an expression again. -/
theorem contained_conditional (he : Contained x n e e')
    (ho : Contained x (n + 1) operand operand') :
    Contained x (n + 1) (conditional e operand) (conditional e' operand') := by
  intro c modes closers m hm hs h
  unfold conditional
  apply agrees_peek_bind h hs
  refine (contained_binary ho c modes closers m hm hs h).track_seq fun condition lost c₁ h₁ => ?_
  dsimp only
  split
  · exact agrees_pure h₁
  apply agrees_peekKind_bind h₁ hs
  split
  · exact agrees_pure h₁
  rename_i hq
  obtain ⟨j, rfl⟩ := h₁.bound_pos
  apply agrees_skip_bind h₁ hs
  have hw := pass_of_passable h₁ hs (by rw [Decidable.of_not_not hq]; decide)
  refine (he _ modes closers j (by omega) hs hw).track_seq fun ifTrue lost c₂ h₂ => ?_
  dsimp only
  split
  · exact agrees_pure (h₂.mono (Nat.le_succ j))
  apply agrees_peek_bind h₂ hs
  split
  · exact agrees_report_bind (agrees_pure (h₂.mono (Nat.le_succ j)))
  rename_i hcolon
  obtain ⟨i, rfl⟩ := h₂.bound_pos
  apply agrees_skip_bind h₂ hs
  have hw := pass_of_passable h₂ hs (by rw [Decidable.of_not_not hcolon]; decide)
  refine (he _ modes closers i (by omega) hs hw).track_seq fun ifFalse lost c₃ h₃ => ?_
  dsimp only
  split
  · exact agrees_pure (h₃.mono (by omega))
  · exact agrees_pure (h₃.mono (by omega))

theorem agrees_splatStep (a : SplatSteps) (hs : Cursor.Clear modes closers)
    (h : c.Within modes closers m) :
    (splatStep a).Agrees x (splatStep a) c fun r c' =>
      Continues modes closers closers m c' r.2 := by
  obtain ⟨j, rfl⟩ := h.bound_pos
  unfold splatStep
  apply agrees_peekKind_bind h hs
  split
  · exact agrees_pure (.done h)
  rename_i hdot
  have hw := pass_of_passable h hs (by rw [Decidable.of_not_not hdot]; decide)
  apply agrees_read_bind h hs
  apply agrees_peek_bind hw hs
  dsimp only
  split
  · rename_i hk
    obtain ⟨i, rfl⟩ := hw.bound_pos
    apply agrees_skip_bind hw hs
    exact agrees_pure (.more (by omega) (pass_of_passable hw hs (by rw [hk]; decide)))
  · rename_i hk
    obtain ⟨i, rfl⟩ := hw.bound_pos
    apply agrees_skip_bind hw hs
    have hw' := pass_of_passable hw hs (by rw [hk]; decide)
    exact Agrees.seq (agrees_numberValue fun _ => hw') fun _ _ hw' =>
      agrees_pure (.more (by omega) hw')
  · apply agrees_reportFirst_bind
    exact agrees_recover_bind (agrees_pure (.done (hw.mono (Nat.le_succ j))))

theorem contained_attributeSplat (source : Expr) (dot star : Token) :
    Contained x n (attributeSplat source dot star) (attributeSplat source dot star) := by
  intro c modes closers m _ hs h
  unfold attributeSplat
  apply Agrees.seq (P := fun _ c' => c'.Within modes closers m)
  · exact agrees_iterate (fun _ => closers) _
      (fun a c j _ hc => agrees_splatStep a hs hc) h
  · exact fun _ _ h => agrees_pure h

theorem agrees_dotSuffix (base : Expr) (hs : Cursor.Clear modes closers)
    (hk : c.peek.kind = .dot) (h : c.Within modes closers (m + 1)) :
    (dotSuffix base).Agrees x (dotSuffix base) c fun _ c' => c'.Within modes closers m := by
  have hw := pass_of_passable h hs (by rw [hk]; decide)
  unfold dotSuffix
  apply agrees_read_bind h hs
  apply agrees_peek_bind hw hs
  split
  · rename_i hk
    obtain ⟨j, rfl⟩ := hw.bound_pos
    apply agrees_skip_bind hw hs
    exact agrees_pure ((pass_of_passable hw hs (by rw [hk]; decide)).mono (Nat.le_succ j))
  · rename_i hk
    obtain ⟨j, rfl⟩ := hw.bound_pos
    apply agrees_skip_bind hw hs
    have hw' := (pass_of_passable hw hs (by rw [hk]; decide)).mono (Nat.le_succ j)
    exact contained_attributeSplat base c.peek c.advance.peek _ _ _ _ (Nat.le_refl _) hs hw'
  · exact agrees_report_bind (agrees_recover_bind (agrees_pure hw))

/-- After a recovery a wrong token is taken for the closing bracket; else that one is looked for. -/
theorem agrees_closeBracket {α : Type} {p : Problem} {r : SourceRange} {close : Token}
    {q q' : Parser α} {Q : α → Cursor → Prop}
    (h : (close.kind = .closeBracket → c.Within modes closers m) ∧
      (close.kind ≠ .closeBracket → c.Within modes (.closeBracket :: closers) m))
    (hq : ∀ c, c.Within modes closers m → q.Agrees x q' c Q) :
    (recovering >>= fun b => if close.kind ≠ .closeBracket ∧ !b then
        report p r none >>= fun _ => skipPast .closeBracket >>= fun _ => q else q).Agrees x
      (recovering >>= fun b => if close.kind ≠ .closeBracket ∧ !b then
        report p r none >>= fun _ => skipPast .closeBracket >>= fun _ => q' else q') c Q := by
  apply agrees_recovering_bind
  intro b
  by_cases hk : close.kind = .closeBracket
  · rw [if_neg fun hc => hc.1 hk, if_neg fun hc => hc.1 hk]
    exact hq c (h.1 hk)
  have hw := h.2 hk
  split
  · apply agrees_report_bind
    exact (containedTo_skipPast rfl c modes closers m (Nat.le_refl m) hw).seq fun _ _ hw => hq _ hw
  · exact hq c hw.weaken

theorem within_advance_closer {k : TokenKind} (h : c.Within modes (k :: closers) (m + 1)) :
    (c.peek.kind = k → c.advance.Within modes closers m) ∧
      (c.peek.kind ≠ k → c.advance.Within modes (k :: closers) m) :=
  ⟨fun _ => h.shorten, fun hk => h.pass_ne hk⟩

variable {suffixes suffixes' : Expr → Parser Expr}

theorem agrees_fullSplat (hf : ∀ each, Contained x n (suffixes each) (suffixes' each))
    (source : Expr) (opening : Token) (hm : m < n) (hs : Cursor.Clear modes closers)
    (h : c.Within modes (.closeBracket :: closers) (m + 1)) :
    (fullSplat suffixes source opening).Agrees x (fullSplat suffixes' source opening) c
      fun _ c' => c'.Within modes closers m := by
  unfold fullSplat
  apply agrees_read_bind h (Cursor.clear_cons _ _ _)
  refine agrees_closeBracket (within_advance_closer h) fun c hw => ?_
  apply agrees_previousRange_bind hw
  refine (hf _ c modes closers m (by omega) hs hw).seq fun each c' hw' => ?_
  exact agrees_pure hw'

theorem containedTo_indexKey (he : Contained x n e e') :
    ContainedTo x .closeBracket n (indexKey e) (indexKey e') := by
  intro c modes closers m hm h
  unfold indexKey
  apply agrees_withNewlines
  have h' := h.enter false
  refine (he _ _ _ m hm (Cursor.clear_cons _ _ _) h').track_seq fun key lost c₁ h₁ => ?_
  dsimp only
  split
  · exact (containedTo_skipPast rfl _ _ _ m hm h₁).seq fun _ _ hw => agrees_pure hw.leave
  obtain ⟨j, rfl⟩ := h₁.bound_pos
  apply agrees_read_bind h₁ (Cursor.clear_cons _ _ _)
  exact agrees_closeBracket (within_advance_closer h₁) fun c hw =>
    agrees_pure (hw.leave.mono (Nat.le_succ j))

theorem containedTo_index (he : Contained x n e e') (collection : Expr) (opening : Token) :
    ContainedTo x .closeBracket n (index e collection opening) (index e' collection opening) := by
  intro c modes closers m hm h
  unfold index
  refine (containedTo_indexKey he c modes closers m hm h).seq fun key c' hw => ?_
  apply agrees_previousRange_bind hw
  split
  · exact agrees_pure hw
  · exact agrees_pure hw

theorem agrees_bracketSuffix (he : Contained x n e e')
    (hf : ∀ each, Contained x n (suffixes each) (suffixes' each)) (base : Expr) (hm : m ≤ n)
    (hs : Cursor.Clear modes closers) (hk : c.peek.kind = .openBracket)
    (h : c.Within modes closers (m + 1)) :
    (bracketSuffix e suffixes base).Agrees x (bracketSuffix e' suffixes' base) c
      fun _ c' => c'.Within modes closers m := by
  have hw := h.opened hs (by rw [hk]; rfl)
  rw [hk] at hw
  have hs' := Cursor.clear_cons modes .closeBracket closers
  unfold bracketSuffix
  apply agrees_read_bind h hs
  apply agrees_peekKind_bind hw hs'
  split
  · rename_i hstar
    obtain ⟨j, rfl⟩ := hw.bound_pos
    apply agrees_skip_bind hw hs'
    have hw' := hw.pass_ne (by rw [hstar]; decide)
    obtain ⟨i, rfl⟩ := hw'.bound_pos
    refine (agrees_fullSplat hf base c.peek (by omega) hs hw').mono fun _ _ hw => ?_
    exact hw.mono (by omega)
  · exact containedTo_index he base c.peek _ modes closers m hm hw

/-- A suffix is read in a line with fewer tokens than it has itself. -/
theorem agrees_suffixStep (he : Contained x n e e')
    (hf : ∀ each, Contained x n (suffixes each) (suffixes' each)) (base : Expr) (hm : m ≤ n + 1)
    (hs : Cursor.Clear modes closers) (h : c.Within modes closers m) :
    (suffixStep e suffixes base).Agrees x (suffixStep e' suffixes' base) c fun r c' =>
      Continues modes closers closers m c' r.2 := by
  obtain ⟨j, rfl⟩ := h.bound_pos
  unfold suffixStep
  apply agrees_peekKind_bind h hs
  split
  · rename_i hk
    refine (agrees_dotSuffix base hs hk h).seq fun _ _ hw => ?_
    exact agrees_pure (.more (Nat.lt_succ_self j) hw)
  · rename_i hk
    refine (agrees_bracketSuffix he hf base (by omega) hs hk h).seq fun _ _ hw => ?_
    exact agrees_pure (.more (Nat.lt_succ_self j) hw)
  · exact agrees_pure (.done h)

end HclSyntax.Parser
