import HclSyntax.Parser.Expression
import HclSyntax.Proofs.Written.Alike

namespace HclSyntax.Parser

variable {α β σ : Type} {x : Surroundings} {c : Cursor} {modes : List Bool}
  {opened needs : List Bracket} {b : Bracket} {m n : Nat} {e : Parser Expr}

/-- Wherever `p` starts in a value with at most `n` tokens left, it is the same in the body. A token
is passed and the brackets that were open are open again. -/
def Carried (x : Surroundings) (n : Nat) (p : Parser α) : Prop :=
  ∀ {c : Cursor} {modes : List Bool} {opened : List Bracket} {m : Nat}, m ≤ n →
    Cursor.Fits modes opened → c.InValue false modes opened m →
      p.Alike x p c fun _ c' => c'.InValue true modes opened m

/-- What follows a token that was passed is the same in the body. -/
def Continued (x : Surroundings) (n : Nat) (p : Parser α) : Prop :=
  ∀ {c : Cursor} {modes : List Bool} {opened : List Bracket} {m : Nat}, m ≤ n →
    Cursor.Fits modes opened → c.InValue true modes opened m →
      p.Alike x p c fun _ c' => c'.InValue true modes opened m

/-- A step that asks for more has the brackets open that it `needs` and is nearer to the end of the
value; the last one leaves the others open. -/
inductive Proceeds (modes : List Bool) (needs opened : List Bracket) (m : Nat) (c : Cursor) :
    Bool → Prop
  | more {j : Nat} (hj : j < m) (h : c.InValue true modes needs j) :
    Proceeds modes needs opened m c true
  | done (h : c.InValue true modes opened m) : Proceeds modes needs opened m c false

theorem alike_iterate (hx : x.Line) {step : σ → Parser (σ × Bool)} (a : σ)
    (hstep : ∀ a c m, m ≤ n → c.InValue true modes needs m → (step a).Alike x (step a) c
      fun r c' => Proceeds modes needs opened m c' r.2)
    (h : c.InValue true modes needs n) :
    (iterate step a).Alike x (iterate step a) c fun _ c' => c'.InValue true modes opened n := by
  have hle := c.remaining_le_inBody hx
  refine Alike.iterateFor (I := fun m a c => m ≤ n ∧ c.InValue true modes needs m)
    (fun m a c hc => ?_) c.remaining (c.remaining + 1) ((c.inBody x).remaining + 1) a c (by omega)
    (by omega) ⟨h.remaining_le, h.exact⟩
  refine (hstep a c m hc.1 hc.2).mono fun r c' hr => ?_
  obtain ⟨a', more⟩ := r
  cases hr with
  | @more j hj h => exact ⟨j, hj, Nat.le_trans (Nat.le_of_lt hj) hc.1, h⟩
  | done h => exact h.mono hc.1

/-- What is made of the next token, which may be the end. -/
theorem alike_peekKind_end (hx : x.Line) (hf : Cursor.Fits modes opened)
    {begun : Bool} (h : c.InValue begun modes opened m) {f : TokenKind → Parser β}
    {Q : β → Cursor → Prop} (hnext : c.Same x → c.peek.kind ≠ .eof →
      (f c.peek.kind).Alike x (f c.peek.kind) c Q)
    (hend : (f .eof).Alike x (f .newline) c Q) :
    (peekKind >>= f).Alike x (peekKind >>= f) c Q := by
  by_cases hk : c.peek.kind = .eof
  · intro hd
    change (f c.peek.kind ⟨c, false⟩).diagnostics = [] at hd
    rw [hk] at hd
    obtain ⟨a, c', hr, hr', hq⟩ := hend hd
    refine ⟨a, c', ?_, ?_, hq⟩
    · rw [reads_peekKind_bind, hk]
      exact hr
    · rw [reads_peekKind_bind, h.peek_inBody_of_eof hf hx hk]
      exact hr'
  · have hs := h.same hf hx hk
    exact alike_peekKind_bind hs (hnext hs hk)

theorem alike_operatorStep (hx : x.Line) {level : Level}
    (hl : ∀ o ∈ level, o.1.Inner ∧ o.1 ≠ .newline) (he : Carried x n e) (lhs : Expr) (hm : m ≤ n)
    (hf : Cursor.Fits modes opened) (h : c.InValue true modes opened m) :
    (operatorStep e level lhs).Alike x (operatorStep e level lhs) c fun r c' =>
      Proceeds modes opened opened m c' r.2 := by
  have hlookup {k : TokenKind} (hk : ¬ (k.Inner ∧ k ≠ .newline)) : level.lookup k = none := by
    rw [List.lookup_eq_none_iff]
    rintro o ho
    rw [bne_iff_ne]
    rintro rfl
    exact hk (hl o ho)
  unfold operatorStep
  refine alike_peekKind_end hx hf h (fun hs hne => ?_) ?_
  · split
    · exact alike_pure (.done h)
    rename_i op hop
    have hk : c.peek.kind.Inner := by
      refine Decidable.byContradiction fun hk => ?_
      rw [hlookup fun hc => hk hc.1] at hop
      cases hop
    obtain ⟨j, rfl⟩ := h.bound_pos
    apply alike_skip_bind hs
    refine (he (by omega) hf (h.pass hf hk).weaken).track_seq fun rhs c' hw => ?_
    exact alike_pure (.more (Nat.lt_succ_self j) hw)
  · rw [hlookup (by decide), hlookup (by decide)]
    exact alike_pure (.done h)

theorem carried_operators (hx : x.Line) {level : Level}
    (hl : ∀ o ∈ level, o.1.Inner ∧ o.1 ≠ .newline) (he : Carried x n e) :
    Carried x n (operators level e) := by
  intro c modes opened m hm hf h
  unfold operators
  refine (he hm hf h).track_seq fun lhs c' h' => ?_
  exact alike_iterate hx lhs
    (fun lhs c j hj hc => alike_operatorStep hx hl he lhs (Nat.le_trans hj hm) hf hc) h'

theorem carried_levels (hx : x.Line) {levels : List Level}
    (hl : ∀ level ∈ levels, ∀ o ∈ level, o.1.Inner ∧ o.1 ≠ .newline) (he : Carried x n e) :
    Carried x n (levels.foldr operators e) := by
  induction levels with
  | nil => exact he
  | cons level levels ih =>
    exact carried_operators hx (hl level (by simp)) (ih fun l h => hl l (by simp [h]))

theorem carried_binary (hx : x.Line) (he : Carried x n e) : Carried x n (binary e) :=
  carried_levels hx (by decide) he

theorem alike_numberValue {t : Token} {Q : Value → Cursor → Prop} (h : ∀ v, Q v c) :
    (numberValue t).Alike x (numberValue t) c Q := by
  unfold numberValue
  split
  · exact alike_pure (h _)
  · exact alike_report_bind

theorem alike_splatStep (hx : x.Line) (a : SplatSteps) (hf : Cursor.Fits modes opened)
    (h : c.InValue true modes opened m) :
    (splatStep a).Alike x (splatStep a) c fun r c' => Proceeds modes opened opened m c' r.2 := by
  unfold splatStep
  refine alike_peekKind_end hx hf h (fun hs hne => ?_) (alike_pure (.done h))
  split
  · exact alike_pure (.done h)
  rename_i hdot
  obtain ⟨j, rfl⟩ := h.bound_pos
  have h₁ := h.pass hf (by rw [Decidable.of_not_not hdot]; decide)
  apply alike_read_bind hs
  by_cases hend : c.advance.peek.kind = .eof
  · apply alike_peek_end
    simp only [hend]
    exact alike_reportFirst_bind
  apply alike_peek_bind (h₁.same hf hx hend)
  obtain ⟨i, rfl⟩ := h₁.bound_pos
  dsimp only
  split
  · rename_i hk
    apply alike_skip_bind (h₁.same hf hx hend)
    exact alike_pure (.more (by omega) (h₁.pass hf (by rw [hk]; decide)))
  · rename_i hk
    have h₂ := h₁.pass hf (by rw [hk]; decide)
    apply alike_skip_bind (h₁.same hf hx hend)
    apply Alike.seq (P := fun _ c' => c'.InValue true modes opened i)
      (alike_numberValue fun _ => h₂)
    exact fun _ _ hw => alike_pure (.more (by omega) hw)
  · exact alike_reportFirst_bind

theorem continued_attributeSplat (hx : x.Line) (source : Expr) (dot star : Token) :
    Continued x n (attributeSplat source dot star) := by
  intro c modes opened m _ hf h
  unfold attributeSplat
  apply Alike.seq (P := fun _ c' => c'.InValue true modes opened m)
  · exact alike_iterate hx _ (fun a c j _ hc => alike_splatStep hx a hf hc) h
  · exact fun _ _ h => alike_pure h

theorem alike_dotSuffix (hx : x.Line) (base : Expr) (hf : Cursor.Fits modes opened)
    (hk : c.peek.kind = .dot) (h : c.InValue true modes opened (m + 1)) :
    (dotSuffix base).Alike x (dotSuffix base) c fun _ c' => c'.InValue true modes opened m := by
  have h₁ := h.pass hf (by rw [hk]; decide)
  unfold dotSuffix
  apply alike_read_bind (h.same hf hx (by rw [hk]; decide))
  by_cases hend : c.advance.peek.kind = .eof
  · apply alike_peek_end
    simp only [hend]
    exact alike_report_bind
  have hs := h₁.same hf hx hend
  apply alike_peek_bind hs
  split
  · rename_i hk
    exact alike_skip_bind hs (alike_pure (h₁.skip hf (by rw [hk]; decide)))
  · rename_i hk
    have h₂ := h₁.skip hf (by rw [hk]; decide)
    apply alike_skip_bind hs
    exact continued_attributeSplat hx base _ _ (Nat.le_refl _) hf h₂
  · exact alike_report_bind

/-- A token for which the closing bracket is not looked for is that bracket. -/
theorem alike_closeBracket {p : Problem} {r : SourceRange} {close : Token} {q q' : Parser α}
    {Q : α → Cursor → Prop} (hq : close.kind = .closeBracket → q.Alike x q' c Q) :
    (recovering >>= fun b => if close.kind ≠ .closeBracket ∧ !b then
        report p r none >>= fun _ => skipPast .closeBracket >>= fun _ => q else q).Alike x
      (recovering >>= fun b => if close.kind ≠ .closeBracket ∧ !b then
        report p r none >>= fun _ => skipPast .closeBracket >>= fun _ => q' else q') c Q := by
  apply alike_recovering_bind
  by_cases hk : close.kind = .closeBracket
  · rw [if_neg fun hc => hc.1 hk, if_neg fun hc => hc.1 hk]
    exact hq hk
  · rw [if_pos ⟨hk, rfl⟩]
    exact alike_report_bind

variable {suffixes : Expr → Parser Expr}

theorem alike_fullSplat (hx : x.Line) (hs : ∀ each, Continued x n (suffixes each))
    (source : Expr) (opening : Token) (hm : m ≤ n) (hf : Cursor.Fits modes opened)
    (hf' : Cursor.Fits modes (b :: opened)) (h : c.InValue true modes (b :: opened) m) :
    (fullSplat suffixes source opening).Alike x (fullSplat suffixes source opening) c
      fun _ c' => c'.InValue true modes opened m := by
  unfold fullSplat
  apply alike_read_bind (h.same_open hf' hx)
  refine alike_closeBracket fun hk => ?_
  have h₁ := h.closed hf' (by rw [hk]; rfl)
  apply alike_previousRange_bind h₁
  exact (hs _ hm hf h₁).seq fun each c' hw => alike_pure hw

theorem alike_indexKey (hx : x.Line) (he : Carried x n e) (hm : m ≤ n)
    (h : c.InValue true modes (b :: opened) m) :
    (indexKey e).Alike x (indexKey e) c fun _ c' => c'.InValue true modes opened m := by
  have hf := Cursor.fits_cons false modes b opened
  unfold indexKey
  apply alike_withNewlines h
  refine (he hm hf (h.enter false).weaken).track_seq fun key c₁ h₁ => ?_
  apply alike_read_bind (h₁.same_open hf hx)
  refine alike_closeBracket fun hk => ?_
  have h₂ := h₁.closed hf (by rw [hk]; rfl)
  exact alike_pure ⟨h₂.leave_inBody, h₂.leave⟩

theorem alike_index (hx : x.Line) (he : Carried x n e) (collection : Expr) (opening : Token)
    (hm : m ≤ n) (h : c.InValue true modes (b :: opened) m) :
    (index e collection opening).Alike x (index e collection opening) c
      fun _ c' => c'.InValue true modes opened m := by
  unfold index
  refine (alike_indexKey hx he hm h).seq fun key c' hw => ?_
  apply alike_previousRange_bind hw
  split
  · exact alike_pure hw
  · exact alike_pure hw

/-- The star of a full splat is looked for where newlines still count as around the bracket. If one
hides it in one reading only, no star is there. -/
theorem alike_bracketSuffix (hx : x.Line) (he : Carried x n e)
    (hs : ∀ each, Continued x n (suffixes each)) (base : Expr) (hm : m ≤ n)
    (hf : Cursor.Fits modes opened) (hk : c.peek.kind = .openBracket)
    (h : c.InValue true modes opened (m + 1)) :
    (bracketSuffix e suffixes base).Alike x (bracketSuffix e suffixes base) c
      fun _ c' => c'.InValue true modes opened m := by
  obtain ⟨us, hus, h₁⟩ := h.opens hf (by rw [hk]; rfl)
  unfold bracketSuffix
  apply alike_read_bind (h.same hf hx (by rw [hk]; decide))
  have hindex := alike_index hx he base c.peek hm h₁
  by_cases hshelter : modes = [] ∧ beginsWithStar us = false
  · obtain ⟨rfl, hstar⟩ := hshelter
    obtain ⟨hne, hne'⟩ := h₁.kind_ne_star hx hus hstar
    have hskip {c' : Cursor} (hne : c'.peek.kind ≠ .star) : (peekKind >>= fun k =>
        if k = .star then skip >>= fun _ => fullSplat suffixes base c.peek
        else index e base c.peek) ⟨c', false⟩ = index e base c.peek ⟨c', false⟩ := by
      change (if c'.peek.kind = .star then _ else _ : Parser Expr) ⟨c', false⟩ = _
      rw [if_neg hne]
    exact hindex.congr (hskip hne) (hskip hne')
  · have hf' : Cursor.Fits modes (c.peek.bracket us :: opened) := by
      refine hf.open fun hmodes => ?_
      simp only [hmodes, true_and, Bool.not_eq_false] at hshelter
      simp [Token.bracket, hk, hshelter]
    have hs₁ := h₁.same_open hf' hx
    apply alike_peekKind_bind hs₁
    split
    · rename_i hstar
      have h₂ := h₁.skip hf' (by rw [hstar]; decide)
      apply alike_skip_bind hs₁
      exact alike_fullSplat hx hs base c.peek hm hf hf' h₂
    · exact hindex

/-- A suffix, or none where the value may end. -/
theorem alike_suffixStep (hx : x.Line) (he : Carried x n e)
    (hs : ∀ each, Continued x n (suffixes each)) (base : Expr) (hm : m ≤ n + 1)
    (hf : Cursor.Fits modes opened) (h : c.InValue true modes opened m) :
    (suffixStep e suffixes base).Alike x (suffixStep e suffixes base) c fun r c' =>
      Proceeds modes opened opened m c' r.2 := by
  obtain ⟨j, rfl⟩ := h.bound_pos
  unfold suffixStep
  refine alike_peekKind_end hx hf h (fun _ _ => ?_) (alike_pure (.done h))
  split
  · rename_i hk
    refine (alike_dotSuffix hx base hf hk h).seq fun _ _ hw => ?_
    exact alike_pure (.more (Nat.lt_succ_self j) hw)
  · rename_i hk
    refine (alike_bracketSuffix hx he hs base (by omega) hf hk h).seq fun _ _ hw => ?_
    exact alike_pure (.more (Nat.lt_succ_self j) hw)
  · exact alike_pure (.done h)

end HclSyntax.Parser
