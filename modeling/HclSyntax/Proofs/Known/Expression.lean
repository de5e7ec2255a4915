import HclSyntax.Proofs.Known.Tree
import HclSyntax.Proofs.Parts
import HclSyntax.Proofs.SilentStep

namespace HclSyntax

/-- Whether the expression that the part of a template holds is known. -/
def TemplatePart.Known : TemplatePart → Prop
  | .text .. => True
  | .interpolation e _ => e.Known
  | .directive (.ifStart e) _ | .directive (.forStart _ _ e) _ => e.Known
  | .directive .. => True

namespace Nesting

/-- Everything that an open directive holds is known. -/
def Frame.Known : Frame → Prop
  | .conditional c _ ifTrue ifFalse =>
    c.Known ∧ (∀ e ∈ ifTrue, e.Known) ∧ ∀ es ∈ ifFalse, ∀ e ∈ es, e.Known
  | .loop _ _ collection _ body => collection.Known ∧ ∀ e ∈ body, e.Known

/-- As long as nothing was reported, everything put together so far is known. -/
def Known (n : Nesting) : Prop :=
  n.diagnostics = [] → (∀ f ∈ n.frames, Frame.Known f) ∧ ∀ e ∈ n.exprs, e.Known

theorem known_branch {exprs : List Expr} {r : SourceRange} (h : ∀ e ∈ exprs, e.Known) :
    (branch exprs r).Known := by
  unfold branch
  split
  · simp [Value.isKnown]
  · simpa using h

theorem Known.push {n : Nesting} {e : Expr} (hn : n.Known) (he : n.diagnostics = [] → e.Known) :
    (n.push e).Known := by
  intro hd
  rw [diagnostics_push] at hd
  obtain ⟨hf, hx⟩ := hn hd
  have he := he hd
  unfold Nesting.push
  split <;> simp_all [Frame.Known, or_imp, forall_and]

/-- The innermost directive becomes an expression of the one around it. -/
theorem Known.close {n : Nesting} {f : Frame} {frames : List Frame} {e : Expr} (hn : n.Known)
    (hframes : n.frames = f :: frames) (he : Frame.Known f → e.Known) :
    (Nesting.push { n with frames } e).Known := by
  refine Known.push (fun h => ?_) fun h => ?_
  all_goals
    obtain ⟨hf, hx⟩ := hn h
    rw [hframes, List.forall_mem_cons] at hf
  · exact ⟨hf.2, hx⟩
  · exact he hf.1

theorem known_fail (n : Nesting) (p : Problem) (r : SourceRange) : (n.fail p r).Known := by
  intro hd
  rw [fail, diagnostics_push] at hd
  simp at hd

theorem Known.directive {n : Nesting} {d : Directive} {r : SourceRange} (hn : n.Known)
    (hd : (TemplatePart.directive d r).Known) : (n.directive d r).Known := by
  unfold Nesting.directive
  split
  case h_1 condition frames =>
    intro h
    obtain ⟨hf, hx⟩ := hn h
    exact ⟨by simpa [Frame.Known] using ⟨hd, hf⟩, hx⟩
  case h_2 k v collection frames =>
    intro h
    obtain ⟨hf, hx⟩ := hn h
    exact ⟨by simpa [Frame.Known] using ⟨hd, hf⟩, hx⟩
  case h_3 c r ifTrue frames hframes =>
    intro h
    obtain ⟨hf, hx⟩ := hn h
    rw [hframes] at hf
    exact ⟨by simpa [Frame.Known] using hf, hx⟩
  case h_7 c r ifTrue ifFalse frames hframes =>
    refine hn.close hframes fun ⟨hc, ht, he⟩ => ?_
    have helse : ∀ e ∈ ifFalse.getD [], e.Known := by cases ifFalse <;> simp_all
    simpa [closeConditional] using ⟨hc, known_branch ht, known_branch helse⟩
  case h_10 k v c r body frames hframes =>
    refine hn.close hframes fun ⟨hc, hb⟩ => ?_
    simpa [closeLoop] using ⟨hc, known_branch hb⟩
  -- every other directive fits nothing that is open
  all_goals exact known_fail _ _ _

theorem Known.part {n : Nesting} {p : TemplatePart} (hn : n.Known) (hp : p.Known) :
    (n.part p).Known := by
  cases p with
  | text value range => exact hn.push fun _ => by simp [Value.isKnown]
  | interpolation e range => exact hn.push fun _ => hp
  | directive d range => exact hn.directive hp

theorem Known.foldl_part {parts : List TemplatePart} {n : Nesting} (hn : n.Known)
    (hp : ∀ p ∈ parts, p.Known) : (parts.foldl Nesting.part n).Known := by
  induction parts generalizing n with
  | nil => exact hn
  | cons p parts ih =>
    obtain ⟨h, hs⟩ := List.forall_mem_cons.mp hp
    exact ih (hn.part h) hs

theorem known_ofParts {parts : List TemplatePart} {stop : SourceRange}
    (hp : ∀ p ∈ parts, p.Known) (h : (ofParts parts stop).2 = []) :
    ∀ e ∈ (ofParts parts stop).1, e.Known := by
  have hn : Known ⟨[], [], []⟩ := fun _ => by simp
  unfold ofParts finish at h ⊢
  split at h
  · rename_i hf
    simp only [hf, if_true]
    exact (hn.foldl_part hp h).2
  · rename_i hf
    have := (List.append_eq_nil_iff.mp h).2
    simp_all

end Nesting

namespace Parser

/-- Whatever `p` reads without a report is known. -/
def GivesKnown (p : Parser Expr) : Prop := ∀ c, p.Yields c fun e _ => e.Known

variable {expression : Parser Expr} {opening : Token}

theorem known_operatorStep {tighter : Parser Expr} (h : GivesKnown tighter) (level : Level)
    {lhs : Expr} (hl : lhs.Known) (c : Cursor) :
    (operatorStep tighter level lhs).Yields c fun r _ => r.1.Known := by
  unfold operatorStep
  simp only [yields_peekKind_bind]
  split
  · simpa using hl
  · simp only [yields_skip_bind]
    exact (h _).track_seq fun rhs c' hr => by simpa using ⟨hl, hr⟩

theorem known_operators {tighter : Parser Expr} (h : GivesKnown tighter) (level : Level) :
    GivesKnown (operators level tighter) := by
  intro c
  refine (h c).track_seq fun lhs c' hl => ?_
  refine Yields.iterate (I := fun e _ => e.Known) (fun e c he => ?_) hl
  exact (known_operatorStep h level he c).mono fun r c' hr => by split <;> exact hr

theorem known_binary {operand : Parser Expr} (h : GivesKnown operand) :
    GivesKnown (binary operand) := by
  unfold binary
  induction BinaryOp.levels with
  | nil => exact h
  | cons level levels ih => exact known_operators ih level

theorem known_conditional {operand : Parser Expr} (he : GivesKnown expression)
    (ho : GivesKnown operand) : GivesKnown (conditional expression operand) := by
  intro c
  unfold conditional
  simp only [yields_peek_bind]
  refine (known_binary ho c).track_seq fun condition c₁ h₁ => ?_
  simp only [Bool.false_eq_true, if_false, yields_peekKind_bind]
  split
  · simpa using h₁
  simp only [yields_skip_bind]
  refine (he _).track_seq fun ifTrue c₂ h₂ => ?_
  simp only [Bool.false_eq_true, if_false, yields_peek_bind]
  split
  · simp
  simp only [yields_skip_bind]
  refine (he _).track_seq fun ifFalse c₃ h₃ => ?_
  simpa using ⟨h₁, h₂, h₃⟩

theorem known_tupleStep (he : GivesKnown expression) {items : List Expr}
    (hi : ∀ e ∈ items, e.Known) (c : Cursor) :
    (tupleStep expression opening items).Yields c fun r _ => ∀ e ∈ r.1, e.Known := by
  unfold tupleStep
  simp only [yields_peekKind_bind]
  split
  · simpa using hi
  refine (he c).track_seq fun item c' h => ?_
  have hs : ∀ e ∈ items ++ [item], e.Known := by simpa [or_imp, forall_and] using ⟨hi, h⟩
  simp only [Bool.false_eq_true, if_false, yields_peek_bind]
  split
  · simpa using hs
  · simpa using hs
  · simp

theorem known_objectKey {key : Expr} {start : Token} (h : key.Known) :
    (objectKey key start).Known := by
  unfold objectKey
  split
  · split <;> simp_all [Value.isKnown]
  · split <;> simp_all [Value.isKnown]
  · simp [Value.isKnown]
  · exact h

theorem known_objectItem (he : GivesKnown expression) {items : List (Expr × Expr)}
    (hi : ∀ i ∈ items, i.1.Known ∧ i.2.Known) (c : Cursor) :
    (objectItem expression opening items).Yields c fun r _ =>
      ∀ i ∈ r.1, i.1.Known ∧ i.2.Known := by
  unfold objectItem
  simp only [yields_peek_bind]
  refine (he c).track_seq fun key c₁ hk => ?_
  simp only [Bool.false_eq_true, if_false, yields_peek_bind]
  split
  · simp
  simp only [yields_skip_bind]
  refine (he _).track_seq fun value c₂ hv => ?_
  simp only [Bool.false_eq_true, if_false]
  refine (yields_objectSeparator opening).seq fun more c₃ _ => ?_
  have hk' : (if c.peek.kind = .openParen then key else objectKey key c.peek).Known := by
    split
    · exact hk
    · exact known_objectKey hk
  simp only [yields_pure, List.mem_append, List.mem_singleton]
  rintro i (h | rfl)
  · exact hi i h
  · exact ⟨hk', hv⟩

theorem known_objectStep (he : GivesKnown expression) {items : List (Expr × Expr)}
    (hi : ∀ i ∈ items, i.1.Known ∧ i.2.Known) (c : Cursor) :
    (objectStep expression opening items).Yields c fun r _ =>
      ∀ i ∈ r.1, i.1.Known ∧ i.2.Known := by
  unfold objectStep
  simp only [yields_peekKind_bind]
  split
  · simpa using hi
  · simpa using hi
  · exact known_objectItem he hi c

theorem known_argumentStep (he : GivesKnown expression) {name : Token} {a : Arguments}
    (ha : ∀ e ∈ a.args, e.Known) (c : Cursor) :
    (argumentStep expression name opening a).Yields c fun r _ => ∀ e ∈ r.1.args, e.Known := by
  unfold argumentStep
  simp only [yields_peekKind_bind]
  split
  · simpa using ha
  refine (he c).track_seq fun arg c' h => ?_
  have hs : ∀ e ∈ a.args ++ [arg], e.Known := by simpa [or_imp, forall_and] using ⟨ha, h⟩
  simp only [Bool.false_eq_true, if_false, yields_read_bind]
  split
  · simpa using hs
  · simpa using hs
  · simp only [yields_peekKind_bind]
    split
    · simpa using hs
    · simp
  · simp
  · simp

theorem known_call (he : GivesKnown expression) (name : Token) :
    GivesKnown (call expression name opening) := by
  intro c
  unfold call
  have h : (withNewlines false (iterate (argumentStep expression name opening) ⟨[], false⟩)).Yields
      c fun a _ => ∀ e ∈ a.args, e.Known := by
    rw [yields_withNewlines]
    refine Yields.iterate (I := fun a _ => ∀ e ∈ a.args, e.Known) (fun a c ha => ?_) (by simp)
    exact (known_argumentStep he ha c).mono fun r c' hr => by split <;> exact hr
  exact h.seq fun a c' ha => by simpa using ha

theorem known_resultPair (he : GivesKnown expression) (c : Cursor) :
    (resultPair expression).Yields c fun r _ => (∀ k ∈ r.1, k.Known) ∧ r.2.Known := by
  unfold resultPair
  refine (he c).seq fun first c₁ h₁ => ?_
  simp only [yields_peekKind_bind]
  split
  · simp only [yields_skip_bind]
    exact (he _).seq fun value c₂ h₂ => by simpa using ⟨h₁, h₂⟩
  · simpa using h₁

theorem known_filter (he : GivesKnown expression) (c : Cursor) :
    (filter expression).Yields c fun r _ => ∀ k ∈ r, k.Known := by
  unfold filter
  simp only [yields_atKeyword_bind]
  split
  · simp only [yields_skip_bind]
    exact (he _).seq fun condition c' h => by simpa using h
  · simp

theorem known_comprehensionResult (he : GivesKnown expression) (keyVar : Option String)
    (valueVar : String) {collection : Expr} (hc : collection.Known) :
    GivesKnown (comprehensionResult expression opening keyVar valueVar collection) := by
  intro c
  unfold comprehensionResult
  refine (known_resultPair he c).track_seq fun pair c₁ h₁ => ?_
  obtain ⟨key, value⟩ := pair
  simp only [Bool.false_eq_true, if_false]
  refine yields_groupingEllipsis.seq fun ellipsis c₂ _ => ?_
  refine (known_filter he c₂).track_seq fun condition c₃ h₃ => ?_
  simp only [Bool.false_eq_true, if_false]
  refine (yields_closeComprehension opening).seq fun close c₄ _ => ?_
  refine (yields_checkResult _ _ _ _ _).seq fun _ c₅ _ => ?_
  simpa using ⟨hc, h₁.1, h₁.2, h₃⟩

theorem known_comprehension (he : GivesKnown expression) :
    GivesKnown (comprehension expression opening) := by
  intro c
  unfold comprehension
  simp only [yields_withNewlines, yields_skip_bind]
  refine (yields_binders opening).seq fun names c₁ h₁ => ?_
  split
  · simp at h₁
  refine (he c₁).track_seq fun collection c₂ h₂ => ?_
  simp only [Bool.false_eq_true, if_false, yields_peekKind_bind]
  split
  · exact yields_reportComprehension_bind _ _ _ _
  simp only [yields_skip_bind]
  exact known_comprehensionResult he _ _ h₂ _

theorem known_tuple (he : GivesKnown expression) : GivesKnown (tuple expression opening) := by
  intro c
  unfold tuple
  simp only [yields_withNewlines, yields_atKeyword_bind]
  split
  · exact known_comprehension he _
  have h : (iterate (tupleStep expression opening) []).Yields (c.enter false)
      fun items _ => ∀ e ∈ items, e.Known := by
    refine Yields.iterate (I := fun items _ => ∀ e ∈ items, e.Known) (fun a c ha => ?_) (by simp)
    exact (known_tupleStep he ha c).mono fun r c' hr => by split <;> exact hr
  exact h.seq fun items c' hi => by simpa using hi

theorem known_object (he : GivesKnown expression) : GivesKnown (object expression opening) := by
  intro c
  unfold object
  simp only [yields_withNewlines, yields_atKeyword_bind]
  split
  · exact known_comprehension he _
  have h : (iterate (objectStep expression opening) []).Yields (c.enter true)
      fun items _ => ∀ i ∈ items, i.1.Known ∧ i.2.Known := by
    refine Yields.iterate (I := fun items _ => ∀ i ∈ items, i.1.Known ∧ i.2.Known)
      (fun a c ha => ?_) (by simp)
    exact (known_objectStep he ha c).mono fun r c' hr => by split <;> exact hr
  exact h.seq fun items c' hi => by simpa using hi

theorem known_splatStep {a : SplatSteps} (ha : ∀ s ∈ a.steps, s.Known) (c : Cursor) :
    (splatStep a).Yields c fun r _ => ∀ s ∈ r.1.steps, s.Known := by
  unfold splatStep
  simp only [yields_peekKind_bind]
  split
  · simpa using ha
  simp only [yields_read_bind, yields_peek_bind]
  split
  · simpa [or_imp, forall_and, TraversalStep.Known] using ha
  · simp only [yields_skip_bind]
    refine (yields_numberValue _).seq fun v c' h => ?_
    obtain ⟨⟨n, -, rfl⟩, -⟩ := h
    simpa [or_imp, forall_and, TraversalStep.Known, Value.isKnown] using ha
  · simp

theorem known_attributeSplat {source : Expr} (hs : source.Known) (dot star : Token) :
    GivesKnown (attributeSplat source dot star) := by
  intro c
  unfold attributeSplat
  have h : (iterate splatStep ⟨[], star.range⟩).Yields c fun a _ => ∀ s ∈ a.steps, s.Known := by
    refine Yields.iterate (I := fun a _ => ∀ s ∈ a.steps, s.Known) (fun a c ha => ?_) (by simp)
    exact (known_splatStep ha c).mono fun r c' hr => by split <;> exact hr
  refine h.seq fun a c' ha => ?_
  split
  · simpa using hs
  · simpa using ⟨hs, ha⟩

theorem known_fullSplat {suffixes : Expr → Parser Expr}
    (h : ∀ e : Expr, e.Known → GivesKnown (suffixes e)) {source : Expr} (hs : source.Known) :
    GivesKnown (fullSplat suffixes source opening) := by
  intro c
  unfold fullSplat
  simp only [yields_read_bind, yields_recovering_bind]
  split
  · simp
  simp only [yields_previousRange_bind]
  exact (h _ (by simp) _).seq fun each c' he => by simpa using ⟨hs, he⟩

theorem known_indexKey (he : GivesKnown expression) : GivesKnown (indexKey expression) := by
  intro c
  unfold indexKey
  rw [yields_withNewlines]
  refine (he _).track_seq fun key c' h => ?_
  simp only [Bool.false_eq_true, if_false, yields_read_bind, yields_recovering_bind]
  split
  · simp
  · simpa using h

theorem known_index (he : GivesKnown expression) {collection : Expr} (hc : collection.Known) :
    GivesKnown (index expression collection opening) := by
  intro c
  unfold index
  refine (known_indexKey he c).seq fun key c' hk => ?_
  simp only [yields_previousRange_bind]
  split
  · rename_i v hv
    rw [yields_pure]
    exact hc.step (hk.staticKey? hv)
  · simpa using ⟨hc, hk⟩

theorem known_dotSuffix {e : Expr} (h : e.Known) : GivesKnown (dotSuffix e) := by
  intro c
  unfold dotSuffix
  simp only [yields_read_bind, yields_peek_bind]
  split
  · simp only [yields_skip_bind, yields_pure]
    exact h.step trivial
  · simp only [yields_skip_bind]
    exact known_attributeSplat h _ _ _
  · simp

theorem known_suffixStep (he : GivesKnown expression) {suffixes : Expr → Parser Expr}
    (h : ∀ e : Expr, e.Known → GivesKnown (suffixes e)) {e : Expr} (hk : e.Known) (c : Cursor) :
    (suffixStep expression suffixes e).Yields c fun r _ => r.1.Known := by
  unfold suffixStep
  simp only [yields_peekKind_bind]
  split
  · exact (known_dotSuffix hk c).seq fun x c' hx => by simpa using hx
  · have hb : (bracketSuffix expression suffixes e).Yields c fun x _ => x.Known := by
      unfold bracketSuffix
      simp only [yields_read_bind, yields_peekKind_bind]
      split
      · simp only [yields_skip_bind]
        exact known_fullSplat h hk _
      · exact known_index he hk _
    exact hb.seq fun x c' hx => by simpa using hx
  · simpa using hk

theorem known_before {a : TemplateParts} (h : ∀ p ∈ a.parts, p.Known) (opening : Token) :
    ∀ p ∈ a.before opening, p.Known := TemplateParts.forall_before (fun _ _ => trivial) h opening

theorem known_loopCollection (he : GivesKnown expression) (key : Option String) (value : String)
    (r : SourceRange) (c : Cursor) : (loopCollection expression key value).Yields c fun d _ =>
      ∃ x, d = some x ∧ (TemplatePart.directive x r).Known := by
  unfold loopCollection
  simp only [yields_atKeyword_bind]
  split
  · simp only [yields_skip_bind]
    refine (he _).seq fun collection c' h => ?_
    rw [yields_pure]
    exact ⟨_, rfl, h⟩
  · simp

theorem known_loopHeader (he : GivesKnown expression) (r : SourceRange) (c : Cursor) :
    (loopHeader expression).Yields c fun d _ =>
      ∃ x, d = some x ∧ (TemplatePart.directive x r).Known := by
  unfold loopHeader
  simp only [yields_read_bind]
  split
  · simp
  simp only [yields_peekKind_bind]
  split
  · exact known_loopCollection he _ _ _ _
  simp only [yields_skip_bind, yields_read_bind]
  split
  · simp
  · exact known_loopCollection he _ _ _ _

theorem known_directiveContent (he : GivesKnown expression) (keyword : Token) (r : SourceRange)
    (c : Cursor) : (directiveContent expression opening keyword).Yields c fun d _ =>
      ∃ x, d = some x ∧ (TemplatePart.directive x r).Known := by
  unfold directiveContent
  split
  · refine (he c).seq fun condition c' h => ?_
    rw [yields_pure]
    exact ⟨_, rfl, h⟩
  · exact (yields_pure _ _ _).mpr ⟨_, rfl, trivial⟩
  · exact (yields_pure _ _ _).mpr ⟨_, rfl, trivial⟩
  · exact known_loopHeader he r c
  · exact (yields_pure _ _ _).mpr ⟨_, rfl, trivial⟩
  · simp

theorem known_directive (he : GivesKnown expression) (c : Cursor) :
    (directive expression opening).Yields c fun r _ => ∀ p ∈ r.1, p.Known := by
  unfold directive
  simp only [yields_peek_bind]
  split
  · simp
  simp only [yields_skip_bind]
  refine (known_directiveContent he _ opening.range _).seq fun d c₁ hd => ?_
  obtain ⟨d, rfl, hd⟩ := hd
  refine (yields_closeSequence _ _).seq fun strip c₂ _ => ?_
  simp only [yields_previousRange_bind, yields_pure, Option.mem_some_iff, forall_eq']
  cases d <;> exact hd

theorem known_interpolation (he : GivesKnown expression) (start : SourceRange) (c : Cursor) :
    (interpolation expression start opening).Yields c fun r _ => r.1.Known := by
  unfold interpolation
  refine Yields.seq (P := fun r _ => r.1.Known) ?_ fun r c' h => ?_
  case refine_2 =>
    simp only [yields_previousRange_bind, yields_pure]
    exact h
  rw [yields_withNewlines]
  refine (he _).seq fun e c₁ h => ?_
  exact (yields_closeSequence _ _).seq fun strip c₂ _ => by simpa using h

theorem known_templateStep (he : GivesKnown expression) (closer : TokenKind)
    (start : SourceRange) {a : TemplateParts} (ha : ∀ p ∈ a.parts, p.Known) (c : Cursor) :
    (templateStep expression closer start a).Yields c fun r _ => ∀ p ∈ r.1.parts, p.Known := by
  have htext (t : Token) (s : String) : ∀ p ∈ a.parts ++ [.text s t.range], p.Known := by
    simpa [or_imp, forall_and] using ⟨ha, trivial⟩
  unfold templateStep
  simp only [yields_read_bind]
  split
  · simpa using ha
  split
  · exact (yields_chunk _).seq fun text c' _ => (yields_pure _ _ _).mpr (htext _ _)
  · exact (yields_chunk _).seq fun text c' _ => (yields_pure _ _ _).mpr (htext _ _)
  · refine (known_interpolation he _ _).seq fun r c' h => (yields_pure _ _ _).mpr ?_
    simpa [or_imp, forall_and] using ⟨known_before ha _, h⟩
  · refine Yields.seq (P := fun r _ => ∀ p ∈ r.1, p.Known) ?_ fun r c' h => ?_
    · rw [yields_withNewlines]
      exact known_directive he _
    obtain ⟨part, strip⟩ := r
    simp only [yields_pure, List.mem_append, Option.mem_toList]
    rintro p (hp | hp)
    · exact known_before ha _ p hp
    · exact h p hp
  · simp

theorem known_templateExpr {parts : List TemplatePart} (hp : ∀ p ∈ parts, p.Known)
    (stop range : SourceRange) : GivesKnown (templateExpr parts stop range) := by
  intro c
  unfold templateExpr
  rw [yields_tell_bind]
  intro h
  have hx := Nesting.known_ofParts hp h
  split <;> simp_all

theorem known_template (he : GivesKnown expression) (start : SourceRange) (closer : TokenKind) :
    GivesKnown (template expression start closer) := by
  intro c
  unfold template
  simp only [yields_peek_bind]
  have h : (iterate (templateStep expression closer c.peek.range) ⟨[], false⟩).Yields c
      fun a _ => ∀ p ∈ a.parts, p.Known := by
    refine Yields.iterate (I := fun a _ => ∀ p ∈ a.parts, p.Known) (fun a c ha => ?_) (by simp)
    exact (known_templateStep he closer _ ha c).mono fun r c' hr => by split <;> exact hr
  refine h.seq fun a c' ha => ?_
  simp only [yields_previousRange_bind]
  apply known_templateExpr
  split
  · exact fun p hp => List.mem_singleton.mp hp ▸ trivial
  · exact ha

/-- Every part of the grammar gives known expressions, from known ones if it goes on from one. -/
def KnownGrammar (g : Grammar) : Prop :=
  GivesKnown (g .expression) ∧ GivesKnown (g .operand) ∧
    ∀ e : Expr, e.Known → GivesKnown (g (.suffixes e))

theorem known_nameExpr (t : Token) : (nameExpr t).Known := by
  unfold nameExpr
  split <;> simp [Value.isKnown, TraversalStep.Known]

theorem known_parenthesized {g : Grammar} (hg : KnownGrammar g) :
    GivesKnown (parenthesized g) := by
  intro c
  unfold parenthesized
  simp only [yields_read_bind, yields_withNewlines]
  refine (hg.1 _).observe_seq fun e c' h => ?_
  simp only [Bool.false_eq_true, if_false]
  exact (yields_closeParenthesis _).seq fun _ c'' _ => by simpa using h

theorem known_unary {g : Grammar} (hg : KnownGrammar g) (op : UnaryOp) :
    GivesKnown (unary g op) := by
  intro c
  unfold unary
  simp only [yields_read_bind]
  exact (hg.2.1 _).seq fun operand c' h => by simpa using h

theorem known_term {g : Grammar} (hg : KnownGrammar g) : GivesKnown (term g) := by
  intro c
  unfold term
  simp only [yields_peek_bind]
  split
  · exact known_parenthesized hg c
  · simp only [yields_skip_bind]
    refine (yields_numberValue _).seq fun v c' h => ?_
    obtain ⟨⟨n, -, rfl⟩, -⟩ := h
    simp [Value.isKnown]
  · unfold nameOrCall
    simp only [yields_read_bind, yields_peekKind_bind]
    split
    · simp only [yields_read_bind]
      exact known_call hg.1 _ _
    · exact (yields_pure _ _ _).mpr (known_nameExpr _)
  · simp only [yields_skip_bind]
    exact known_template hg.1 _ _ _
  · simp only [yields_skip_bind]
    exact known_template hg.1 _ _ _
  · exact known_unary hg _ c
  · exact known_unary hg _ c
  · simp only [yields_skip_bind]
    exact known_tuple hg.1 _
  · simp only [yields_skip_bind]
    exact known_object hg.1 _
  · simp

theorem known_suffixes {g : Grammar} (hg : KnownGrammar g) {e : Expr} (h : e.Known) :
    GivesKnown (suffixes g e) := by
  intro c
  refine Yields.iterate (I := fun e _ => e.Known) (fun a c ha => ?_) h
  exact (known_suffixStep hg.1 hg.2.2 ha c).mono fun r c' hr => by split <;> exact hr

theorem known_operand {g : Grammar} (hg : KnownGrammar g) : GivesKnown (operand g) := fun c =>
  (known_term hg c).seq fun _ c' h => known_suffixes hg h c'

theorem known_production {g : Grammar} (hg : KnownGrammar g) : KnownGrammar (production g) :=
  ⟨known_conditional hg.1 (known_operand hg), known_operand hg, fun _ => known_suffixes hg⟩

theorem known_grammar (depth : Nat) : KnownGrammar (grammar depth) := by
  induction depth with
  | zero => exact ⟨fun c => yields_invalid c _, fun c => yields_invalid c _,
      fun e _ c => yields_invalid_bind _ c _⟩
  | succ depth ih => exact known_production ih

theorem known_expression : GivesKnown Parser.expression := fun c =>
  ((known_grammar (c.remaining + 1)).1 c).congr rfl

end Parser

end HclSyntax
