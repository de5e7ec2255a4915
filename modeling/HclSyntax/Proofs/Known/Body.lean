import HclSyntax.Proofs.Known.Expression

namespace HclSyntax.Parser

theorem yields_quotedString (opening : Token) (c : Cursor) :
    (quotedString opening).Yields c fun _ _ => True := by
  unfold quotedString
  have h : (iterate (quotedStep opening) ⟨"", opening.range⟩).Yields c fun _ _ => True := by
    refine Yields.iterate (I := fun _ _ => True) (fun q c _ => ?_) trivial
    unfold quotedStep
    simp only [yields_read_bind]
    split
    · simp
    · exact (yields_chunk _).seq fun _ _ _ => by simp
    all_goals simp
  exact h.seq fun q c' _ => by simp

theorem known_constantIndex (root opening : Token) (c : Cursor) :
    (constantIndex root opening).Yields c fun s _ => ∀ x ∈ s, x.Known := by
  unfold constantIndex
  have h : (constantKey root).Yields c fun key _ => ∀ v ∈ key, v.isKnown := by
    unfold constantKey
    simp only [yields_peek_bind]
    split
    · simp only [yields_skip_bind]
      refine (yields_numberValue _).seq fun v c' h => ?_
      obtain ⟨⟨n, -, rfl⟩, -⟩ := h
      simp [Value.isKnown]
    · simp only [yields_skip_bind]
      refine (yields_quotedString _ _).seq fun q c' _ => ?_
      simp [Value.isKnown]
    · simp
  refine h.seq fun key c' hk => ?_
  split
  · simp
  · simp only [yields_read_bind]
    split
    · simp
    · simpa [TraversalStep.Known] using hk

theorem known_traversalStep (root : Token) {steps : Traversal} (hs : ∀ s ∈ steps, s.Known)
    (c : Cursor) : (traversalStep root steps).Yields c fun r _ => ∀ s ∈ r.1, s.Known := by
  unfold traversalStep
  simp only [yields_peek_bind]
  split
  · simpa using hs
  · simp only [yields_skip_bind, yields_read_bind]
    split
    · simpa [or_imp, forall_and, TraversalStep.Known] using hs
    · simp
  · simp only [yields_skip_bind]
    refine (known_constantIndex root c.peek _).observe_seq fun step c' hk => ?_
    simp only [yields_pure, List.mem_append, Option.mem_toList]
    rintro s (h | h)
    · exact hs s h
    · exact hk s h
  · simp

theorem known_traversal (c : Cursor) : traversal.Yields c fun steps _ => ∀ s ∈ steps, s.Known := by
  unfold traversal
  simp only [yields_read_bind]
  split
  · simp
  refine Yields.iterate (I := fun steps _ => ∀ s ∈ steps, s.Known) (fun a c ha => ?_) ?_
  · exact (known_traversalStep _ ha c).mono fun r c' hr => by split <;> exact hr
  · simp [TraversalStep.Known]

theorem known_attributeValue (name equals : Token) (singleLine : Bool) (c : Cursor) :
    (attributeValue name equals singleLine).Yields c fun a _ => a.expr.Known := by
  unfold attributeValue Watch.attributeValue
  refine (known_expression c).track_seq fun e c' h => ?_
  simp only [Bool.false_eq_true, if_false, yields_previousRange_bind]
  split
  · simpa using h
  · exact (yields_endOfLine _ _).seq fun _ _ _ => by simpa using h

/-- The header of a block that was read to its end has a brace. -/
theorem yields_header (name : Token) (c : Cursor) :
    (iterate (headerStep name) ⟨[], [], none⟩).Yields c fun h _ => h.brace.isSome := by
  refine Yields.iterate (I := fun _ _ => True) (fun h c _ => ?_) trivial
  unfold headerStep Watch.headerStep
  simp only [yields_peek_bind]
  split
  · simp
  · simp only [yields_skip_bind]
    exact (yields_quotedString _ _).observe_seq fun _ _ _ => by simp
  · exact yields_reportHeader_bind _ _ _ _

theorem whole_singleLineBody (c : Cursor) :
    singleLineBody.Yields c fun b _ => ∃ x, b = some x ∧ x.Whole := by
  unfold singleLineBody Watch.singleLineBody
  simp only [yields_read_bind]
  split
  · simp
  simp only [yields_peek_bind]
  split
  · simp only [yields_skip_bind]
    refine (known_attributeValue _ _ _ _).seq fun a c₁ ha => ?_
    refine yields_closeSingleLine.seq fun _ c₂ _ => ?_
    rw [yields_pure]
    exact ⟨_, rfl, Body.whole_iff.mpr (by simpa using ha)⟩
  all_goals simp

variable {nested : Parser Body}

theorem whole_blockBody (hn : ∀ c, nested.Yields c fun b _ => b.Whole) (c : Cursor) :
    (blockBody nested).Yields c fun b _ => ∃ x, b = some x ∧ x.Whole := by
  unfold blockBody Watch.blockBody
  simp only [yields_peekKind_bind]
  have h := (hn c).seq (f := fun b => pure (some b)) (Q := fun b _ => ∃ x, b = some x ∧ x.Whole)
    fun b c' hb => (yields_pure _ _ _).mpr ⟨b, rfl, hb⟩
  split
  · exact h
  · exact h
  · exact h
  · exact whole_singleLineBody c

theorem whole_block (hn : ∀ c, nested.Yields c fun b _ => b.Whole) (name : Token) (c : Cursor) :
    (block nested name).Yields c fun b _ => b.Whole := by
  unfold block Watch.block
  refine (yields_header name c).seq fun h c₁ hb => ?_
  split
  · simp_all
  refine (whole_blockBody hn c₁).seq fun body c₂ hw => ?_
  obtain ⟨x, rfl, hx⟩ := hw
  simp only [yields_previousRange_bind]
  refine (yields_endOfLine _ _).seq fun _ c₃ _ => ?_
  rw [yields_pure]
  exact Block.whole_iff.mpr ⟨x, rfl, hx⟩

/-- All items of a body so far are whole. -/
def Items.Whole (items : Items) : Prop :=
  (∀ a ∈ items.attributes, a.expr.Known) ∧ ∀ b ∈ items.blocks, b.Whole

theorem Items.Whole.define {items : Items} (h : items.Whole) {a : Attribute} (ha : a.expr.Known)
    (c : Cursor) : (items.define a).Yields c fun i _ => i.Whole := by
  unfold Items.define
  split
  · rw [yields_pure]
    exact ⟨by simpa [or_imp, forall_and] using ⟨h.1, ha⟩, h.2⟩
  · simp

theorem whole_item (hn : ∀ c, nested.Yields c fun b _ => b.Whole) (name : Token) {items : Items}
    (h : items.Whole) (c : Cursor) : (item nested name items).Yields c fun i _ => i.Whole := by
  have hb : (block nested name >>= fun b =>
      pure { items with blocks := items.blocks ++ [b] }).Yields c fun i _ => i.Whole := by
    refine (whole_block hn name c).seq fun b c' hb => ?_
    rw [yields_pure]
    exact ⟨h.1, by simpa [or_imp, forall_and] using ⟨h.2, hb⟩⟩
  unfold item Watch.item
  simp only [Watch.idle_on, yields_peek_bind]
  split
  · simp only [yields_skip_bind]
    exact (known_attributeValue _ _ _ _).seq fun a c' ha => h.define ha c'
  · exact hb
  · exact hb
  · exact yields_skipItem_report_bind _ _ _ _ _ _

theorem whole_bodyStep (hn : ∀ c, nested.Yields c fun b _ => b.Whole) (closer : TokenKind)
    (start : SourceRange) {items : Items} (h : items.Whole) (c : Cursor) :
    (bodyStep nested closer start items).Yields c fun r _ => r.1.Whole := by
  unfold bodyStep Watch.bodyStep
  simp only [Watch.idle_on, yields_read_bind]
  split
  · exact (yields_pure _ _ _).mpr h
  split
  · exact (yields_pure _ _ _).mpr h
  · exact (whole_item hn _ h _).seq fun i c' hi => (yields_pure _ _ _).mpr hi
  · exact yields_reportItem_bind _ _ _ _

theorem whole_bodyFor (depth : Nat) (closer : TokenKind) (c : Cursor) :
    (bodyFor depth closer).Yields c fun b _ => b.Whole := by
  induction depth generalizing closer c with
  | zero => exact yields_invalid_bind _ c _
  | succ depth ih =>
    have h (start : SourceRange) : (iterate (bodyStep (bodyFor depth .closeBrace) closer start)
        ⟨[], [], start⟩).Yields c fun i _ => i.Whole := by
      refine Yields.iterate (I := fun i _ => i.Whole) (fun i c hi => ?_) ⟨by simp, by simp⟩
      exact (whole_bodyStep (ih .closeBrace) closer start hi c).mono
        fun r c' hr => by split <;> exact hr
    refine (yields_previousRange_bind _ _ _).mpr ((h _).seq fun i c' hi => ?_)
    rw [yields_pure]
    exact Body.whole_iff.mpr hi

theorem whole_body (closer : TokenKind) (c : Cursor) :
    (body closer).Yields c fun b _ => b.Whole :=
  (whole_bodyFor (c.remaining + 1) closer c).congr rfl

end HclSyntax.Parser
