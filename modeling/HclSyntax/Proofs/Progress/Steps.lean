import HclSyntax.Proofs.Progress.Advance

namespace HclSyntax.Parser

variable {expression : Parser Expr} (he : Framed expression) {opening : Token}

theorem advances_skipPastStep (closer : TokenKind) : Advances (skipPastStep closer) where
  framed depth := framed.skipPastStep closer depth
  passes depth s hs := by
    unfold skipPastStep
    rw [moves_read_bind]
    dsimp only
    split
    · exact moves_done rfl
    rename_i hk
    -- the end of the file counts as itself
    have hk : s.cursor.peek.kind ≠ .eof := fun h => hk (by rw [h]; simp [countedAs])
    refine .of_framed ?_ (Cursor.remaining_advance_lt hs hk)
    repeat' split
    all_goals exact framed.pure _

theorem advances_skipItemStep : Advances skipItemStep where
  framed opened := framed.skipItemStep opened
  passes opened s hs := by
    unfold skipItemStep
    rw [moves_read_bind]
    dsimp only
    split
    · exact moves_done rfl
    rename_i hk
    refine .of_framed ?_ (Cursor.remaining_advance_lt hs fun h => hk (.inl h))
    repeat' split
    all_goals exact framed.pure _

theorem advances_quotedStep : Advances (quotedStep opening) where
  framed q := framed.quotedStep q
  passes q s hs := by
    unfold quotedStep
    rw [moves_read_bind]
    split
    · exact moves_done rfl
    · rename_i hk
      refine .of_framed (framed.map (framed.chunk _) _) (Cursor.remaining_advance_lt hs ?_)
      simp [hk]
    · rename_i hk
      refine .of_framed ?_ (Cursor.remaining_advance_lt hs (by simp [hk]))
      exact framed.bind (framed.report _ _ _ rfl) fun _ => framed.map (framed.skipPast _) _
    · rename_i hk
      refine .of_framed ?_ (Cursor.remaining_advance_lt hs (by simp [hk]))
      exact framed.bind (framed.report _ _ _ rfl) fun _ => framed.map (framed.skipPast _) _
    · exact .last fun _ _ => moves_done rfl
    · exact .last fun _ _ => .last fun _ _ => moves_done rfl

theorem BinaryOp.lookup_eof : ∀ level ∈ BinaryOp.levels, level.lookup TokenKind.eof = none := by
  decide

theorem advances_operatorStep {tighter : Parser Expr} (ht : Framed tighter) {level : Level}
    (hl : level ∈ BinaryOp.levels) : Advances (operatorStep tighter level) where
  framed lhs := framed.operatorStep ht level lhs
  passes lhs s hs := by
    unfold operatorStep
    rw [moves_peekKind_bind]
    split
    · exact moves_done rfl
    rename_i op hop
    refine moves_skip_bind ?_ hs (fun h => ?_) (Nat.le_refl _)
    · refine framed.track_seq ht fun rhs lost => ?_
      dsimp only
      split <;> exact framed.pure _
    · rw [h, BinaryOp.lookup_eof level hl] at hop
      cases hop

/-- What holds of operands and of operators of any level above such parsers holds of all binary
operators. -/
theorem binary_induction {operand : Parser Expr} {P : Parser Expr → Prop} (hf : Framed operand)
    (ho : P operand) (hop : ∀ level ∈ BinaryOp.levels, ∀ p, Framed p → P p →
      P (operators level p)) : P (binary operand) := by
  suffices h : ∀ levels : List Level, (∀ level ∈ levels, level ∈ BinaryOp.levels) →
      P (levels.foldr operators operand) ∧ Framed (levels.foldr operators operand) from
    (h _ fun _ hl => hl).1
  intro levels hlevels
  induction levels with
  | nil => exact ⟨ho, hf⟩
  | cons level levels ih =>
    obtain ⟨hp, hframed⟩ := ih fun l hl => hlevels l (List.mem_cons_of_mem _ hl)
    exact ⟨hop _ (hlevels _ List.mem_cons_self) _ hframed hp, framed.operators hframed _⟩

theorem advances_splatStep : Advances splatStep where
  framed a := framed.splatStep a
  passes a s hs := by
    unfold splatStep
    rw [moves_peekKind_bind]
    split
    · exact moves_done rfl
    rename_i hk
    have hk : s.cursor.peek.kind = .dot := Decidable.of_not_not hk
    rw [moves_read_bind, moves_peek_bind]
    dsimp only
    have hlt := Cursor.remaining_advance_lt hs (by rw [hk]; decide)
    split
    · exact .of_framed (framed.map framed.skip _) hlt
    · exact .of_framed (framed.bind framed.skip fun _ => framed.map (framed.numberValue _) _) hlt
    · exact .last fun _ _ => .last fun _ _ => moves_done rfl

theorem moves_dotSuffix (e : Expr) {s : ParseState} (hs : s.Ends)
    (hk : s.cursor.peek.kind = .dot) {more : Expr → Bool} :
    Moves s.cursor.remaining more (dotSuffix e) s := by
  unfold dotSuffix
  rw [moves_read_bind]
  refine .of_framed ?_ (Cursor.remaining_advance_lt hs (by rw [hk]; decide))
  refine framed.bind framed.peek fun next => ?_
  split
  · exact framed.map framed.skip _
  · exact framed.bind framed.skip fun _ => framed.attributeSplat e _ next
  · exact framed.bind (framed.report _ _ _ rfl) fun _ => framed.map framed.recover _

include he in
theorem moves_bracketSuffix {suffixes : Expr → Parser Expr} (hf : ∀ e, Framed (suffixes e))
    (e : Expr) {s : ParseState} (hs : s.Ends) (hk : s.cursor.peek.kind = .openBracket)
    {more : Expr → Bool} :
    Moves s.cursor.remaining more (bracketSuffix expression suffixes e) s := by
  unfold bracketSuffix
  rw [moves_read_bind]
  refine .of_framed ?_ (Cursor.remaining_advance_lt hs (by rw [hk]; decide))
  refine framed.bind framed.peekKind fun k => ?_
  split
  · exact framed.bind framed.skip fun _ => framed.fullSplat hf e
  · exact framed.index he e

include he in
theorem advances_suffixStep {suffixes : Expr → Parser Expr} (hf : ∀ e, Framed (suffixes e)) :
    Advances (suffixStep expression suffixes) where
  framed e := framed.suffixStep he hf e
  passes e s hs := by
    unfold suffixStep
    rw [moves_peekKind_bind]
    split
    · rename_i hk
      exact moves_map.mpr (moves_dotSuffix e hs hk)
    · rename_i hk
      exact moves_map.mpr (moves_bracketSuffix he hf e hs hk)
    · exact moves_done rfl

theorem advances_traversalStep (root : Token) : Advances (traversalStep root) where
  framed steps := framed.traversalStep root steps
  passes steps s hs := by
    unfold traversalStep
    rw [moves_peek_bind]
    split
    · exact moves_done rfl
    · rename_i hk
      refine moves_skip_bind ?_ hs (by simp [hk]) (Nat.le_refl _)
      refine framed.bind framed.read fun name => ?_
      split
      · exact framed.pure _
      · exact framed.map (framed.report _ _ _ (by split <;> rfl)) _
    · rename_i hk
      refine moves_skip_bind ?_ hs (by simp [hk]) (Nat.le_refl _)
      exact framed.map (framed.observe (framed.constantIndex root)) _
    · exact .last fun _ _ => moves_done rfl

include he in
theorem advances_tupleStep : Advances (tupleStep expression opening) where
  framed items := framed.tupleStep he items
  passes items s hs := by
    unfold tupleStep
    rw [moves_peekKind_bind]
    split
    · exact .last fun _ _ => moves_done rfl
    refine .seq (framed.track he) hs fun r s₁ hs₁ hle => ?_
    obtain ⟨item, lost⟩ := r
    dsimp only
    split
    · exact .last fun _ _ => moves_done rfl
    rw [moves_peek_bind]
    split
    · exact .last fun _ _ => moves_done rfl
    · rename_i hk
      exact moves_skip_bind (framed.pure _) hs₁ (by simp [hk]) hle
    · exact .last fun _ _ => .last fun _ _ => moves_done rfl

theorem moves_objectSeparator {s : ParseState} (hs : s.Ends) {n : Nat}
    (hn : s.cursor.remaining ≤ n) : Moves n id (objectSeparator opening) s := by
  unfold objectSeparator
  rw [moves_peek_bind]
  split
  · exact .last fun _ _ => moves_done rfl
  · rename_i hk
    exact moves_skip_bind (framed.pure _) hs (by simp [hk]) hn
  · rename_i hk
    exact moves_skip_bind (framed.pure _) hs (by simp [hk]) hn
  · exact .last fun _ _ => .last fun _ _ => moves_done rfl

include he in
theorem moves_objectItem {s : ParseState} (hs : s.Ends) (items : List (Expr × Expr)) :
    Moves s.cursor.remaining Prod.snd (objectItem expression opening items) s := by
  unfold objectItem
  rw [moves_peek_bind]
  refine .seq (framed.track he) hs fun r s₁ hs₁ hle₁ => ?_
  obtain ⟨key, lost⟩ := r
  dsimp only
  split
  · exact .last fun _ _ => moves_done rfl
  rw [moves_peek_bind]
  split
  · exact .last fun _ _ => .last fun _ _ => moves_done rfl
  refine .seq framed.skip hs₁ fun _ s₂ hs₂ hle₂ => ?_
  refine .seq (framed.track he) hs₂ fun r s₃ hs₃ hle₃ => ?_
  obtain ⟨value, lost⟩ := r
  dsimp only
  split
  · exact .last fun _ _ => moves_done rfl
  · exact moves_map.mpr (moves_objectSeparator hs₃ (by omega))

include he in
theorem advances_objectStep : Advances (objectStep expression opening) where
  framed items := framed.objectStep he items
  passes items s hs := by
    unfold objectStep
    rw [moves_peekKind_bind]
    split
    · rename_i hk
      exact moves_skip_bind (framed.pure _) hs (by simp [hk]) (Nat.le_refl _)
    · exact .last fun _ _ => moves_done rfl
    · exact moves_objectItem he hs items

include he in
theorem advances_argumentStep (name : Token) :
    Advances (argumentStep expression name opening) where
  framed a := framed.argumentStep he name a
  passes a s hs := by
    unfold argumentStep
    rw [moves_peekKind_bind]
    split
    · exact .last fun _ _ => moves_done rfl
    refine .seq (framed.track he) hs fun r s₁ hs₁ hle => ?_
    obtain ⟨arg, lost⟩ := r
    dsimp only
    split
    · exact .last fun _ _ => moves_done rfl
    rw [moves_read_bind]
    split
    · exact moves_done rfl
    · rename_i hk
      have hlt := Cursor.remaining_advance_lt hs₁ (by simp [hk])
      exact .of_framed (framed.pure _) (Nat.lt_of_lt_of_le hlt hle)
    · rw [moves_peekKind_bind]
      split
      · exact .last fun _ _ => moves_done rfl
      · exact .last fun _ _ => .last fun _ _ => moves_done rfl
    · exact .last fun _ _ => .last fun _ _ => moves_done rfl
    · exact .last fun _ _ => .last fun _ _ => moves_done rfl

include he in
theorem advances_templateStep (closer : TokenKind) (start : SourceRange) :
    Advances (templateStep expression closer start) where
  framed a := framed.templateStep he closer start a
  passes a s hs := by
    unfold templateStep
    rw [moves_read_bind]
    split
    · exact moves_done rfl
    split
    · rename_i hk
      refine .of_framed (framed.map (framed.chunk _) _) (Cursor.remaining_advance_lt hs ?_)
      simp [hk]
    · rename_i hk
      refine .of_framed (framed.map (framed.chunk _) _) (Cursor.remaining_advance_lt hs ?_)
      simp [hk]
    · rename_i hk
      refine .of_framed (framed.map (framed.interpolation he _) _)
        (Cursor.remaining_advance_lt hs ?_)
      simp [hk]
    · rename_i hk
      refine .of_framed (framed.map (framed.withNewlines _ (framed.directive he)) _)
        (Cursor.remaining_advance_lt hs ?_)
      simp [hk]
    · refine .last fun _ _ => ?_
      dsimp only
      split
      · exact .last fun _ _ => moves_done rfl
      · exact .last fun _ _ => .last fun _ _ => moves_done rfl

theorem advances_headerStep (name : Token) : Advances (headerStep name) where
  framed x := framed.headerStep name x
  passes x s hs := by
    unfold headerStep Watch.headerStep
    rw [moves_peek_bind]
    split
    · exact .last fun _ _ => moves_done rfl
    · rename_i hk
      refine moves_skip_bind ?_ hs (by simp [hk]) (Nat.le_refl _)
      refine framed.observe_seq framed.quotedString fun label reported => ?_
      dsimp only
      split
      · exact framed.map framed.skipItem _
      · exact framed.pure _
    · exact .last fun _ _ => .last fun _ _ => moves_done rfl

theorem advances_bodyStep {nested : Parser Body} (hn : Framed nested) (closer : TokenKind)
    (start : SourceRange) : Advances (bodyStep nested closer start) where
  framed items := framed.bodyStep hn closer start items
  passes items s hs := by
    unfold bodyStep Watch.bodyStep
    rw [Watch.idle_on, moves_read_bind]
    split
    · exact moves_done rfl
    split
    · rename_i hk
      exact .of_framed (framed.pure _) (Cursor.remaining_advance_lt hs (by simp [hk]))
    · rename_i hk
      refine .of_framed (framed.map (framed.item hn _ items) _)
        (Cursor.remaining_advance_lt hs ?_)
      simp [hk]
    · exact .last fun _ _ => .last fun _ _ => moves_done rfl

end HclSyntax.Parser
