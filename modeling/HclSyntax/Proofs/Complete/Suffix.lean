import HclSyntax.Proofs.Complete.Operator
import HclSyntax.Proofs.Sound.Expression

namespace HclSyntax.Parser

variable {expression : Parser Expr} {suffixes : Expr → Parser Expr} {c : Cursor} {nl : Bool}
  {ts ts₁ ts₂ ts₃ ts₄ : List Token} {base e key : Tree} {f : Further}

theorem reads_numberValue {t : Token} {n : Number} (h : Number.parse t.text = .ok n) :
    (numberValue t).Reads c (.number n) c := by
  unfold numberValue
  rw [h]
  exact reads_pure.mpr ⟨rfl, rfl⟩

theorem leads_splatPath {steps : List Step} (h : SplatPath nl steps ts) :
    ∀ c : Cursor, c.Faces nl ts → ∀ last, ∃ a : SplatSteps,
      Leads splatStep ⟨[], last⟩ c a (c.past ts) ∧ a.steps.map TraversalStep.plain = steps := by
  induction h with
  | nil => exact fun c _ last => ⟨⟨[], last⟩, .refl, rfl⟩
  | @attr steps name ts ts₁ ts₂ _ hd hn ih =>
    intro c hf last
    obtain ⟨a, hleads, ha⟩ := ih c hf.left.left last
    obtain ⟨hk₁, ha₁⟩ := hf.left.right.mark hd
    obtain ⟨hk₂, rfl, ha₂⟩ := hf.right.name hn
    rw [Cursor.past_past] at ha₁ ha₂
    refine ⟨⟨a.steps ++ [.attr (c.past (ts ++ ts₁)).peek.text (.between (c.past ts).peek.range
      (c.past (ts ++ ts₁)).peek.range)], (c.past (ts ++ ts₁)).peek.range⟩, hleads.step ?_ ?_, ?_⟩
    · unfold splatStep
      simp only [reads_peekKind_bind, hk₁, ne_eq, not_true_eq_false, if_false, reads_read_bind, ha₁,
        reads_peek_bind, hk₂, reads_skip_bind, ha₂, reads_pure, and_self]
    · exact hf.remaining_lt_append (Nat.add_pos_left hd.length_pos _)
    · simp [ha, TraversalStep.plain]
  | @index steps t n ts ts₁ ts₂ _ hd hk hn ht ih =>
    intro c hf last
    obtain ⟨a, hleads, ha⟩ := ih c hf.left.left last
    obtain ⟨hk₁, ha₁⟩ := hf.left.right.mark hd
    obtain ⟨hp₂, ha₂⟩ := hf.right.sees ht
    rw [Cursor.past_past] at ha₁ ha₂
    refine ⟨⟨a.steps ++ [.index (.number n) (.between (c.past ts).peek.range t.range)], t.range⟩,
      hleads.step ?_ ?_, ?_⟩
    · unfold splatStep
      simp only [reads_peekKind_bind, hk₁, ne_eq, not_true_eq_false, if_false, reads_read_bind, ha₁,
        reads_peek_bind, hp₂, hk, reads_skip_bind, ha₂]
      exact (reads_numberValue hn).bind (reads_pure.mpr ⟨rfl, rfl⟩)
    · exact hf.remaining_lt_append (Nat.add_pos_left hd.length_pos _)
    · simp [ha, TraversalStep.plain]

theorem reads_attributeSplat {steps : List Step} (h : SplatPath nl steps ts) (hf : c.Faces nl ts)
    (hk : (c.past ts).peek.kind ≠ .dot) (source : Expr) (dot star : Token) :
    ∃ x, (attributeSplat source dot star).Reads c x (c.past ts) ∧
      x.tree = .splat source.tree (steps.foldl Tree.step .element) := by
  obtain ⟨a, hleads, ha⟩ := leads_splatPath h c hf star.range
  have hlast : (splatStep a).Reads (c.past ts) (a, false) (c.past ts) := by
    unfold splatStep
    simp only [reads_peekKind_bind, hk, ne_eq, not_false_eq_true, if_true, reads_pure, and_self]
  refine ⟨_, (hleads.iterate hlast).bind (reads_pure.mpr ⟨rfl, rfl⟩), ?_⟩
  rw [Expr.tree, ← ha]
  rcases hsteps : a.steps with _ | ⟨s, rest⟩
  · simp [Expr.tree]
  · rw [foldl_step_element (by simp)]
    simp [Expr.tree]

/-- The suffixes that make `e` of `base` are read one by one, if what follows is not more of the
last one. -/
def ReadsFurther (expression : Parser Expr) (suffixes : Expr → Parser Expr) (base : Tree)
    (f : Further) (nl : Bool) (e : Tree) (ts : List Token) : Prop :=
  ∀ c : Cursor, c.Faces nl ts → (c.past ts).peek.kind ≠ .openParen →
    (f = .brackets → (c.past ts).peek.kind ≠ .dot) → (f = .nothing → NoSuffix (c.past ts)) →
      c.peek.kind ≠ .openParen ∧ ∀ x₀ : Expr, x₀.tree = base → ∃ x : Expr,
        Leads (suffixStep expression suffixes) x₀ c x (c.past ts) ∧ x.tree = e

theorem readsFurther_nil : ReadsFurther expression suffixes base .all nl base [] :=
  fun _ _ hk _ _ => ⟨hk, fun x₀ hx₀ => ⟨x₀, .refl, hx₀⟩⟩

/-- One more suffix, that begins with a dot or a bracket. -/
theorem ReadsFurther.concat {f' : Further} {e' : Tree}
    (h : ReadsFurther expression suffixes base f nl e ts) {k : TokenKind} (ho : Mark nl k ts₁)
    (hk : k = .dot ∧ f = .all ∨ k = .openBracket ∧ f ≠ .nothing)
    (hs : ∀ c : Cursor, c.Faces nl (ts₁ ++ ts₂) → c.peek.kind = k → c.advance = c.past ts₁ →
      (f' = .brackets → (c.past (ts₁ ++ ts₂)).peek.kind ≠ .dot) →
      (f' = .nothing → StopsOperand (c.past (ts₁ ++ ts₂)).peek.kind) → ∀ x : Expr, x.tree = e →
        ∃ y : Expr, (suffixStep expression suffixes x).Reads c (y, true) (c.past (ts₁ ++ ts₂)) ∧
          y.tree = e') :
    ReadsFurther expression suffixes base f' nl e' (ts ++ (ts₁ ++ ts₂)) := by
  intro c hf hparen hbrackets hnothing
  obtain ⟨hkind, hadv⟩ := hf.right.left.mark ho
  have hmark : (c.past ts).peek.kind ≠ .openParen ∧ (f = .brackets → (c.past ts).peek.kind ≠ .dot) ∧
      (f = .nothing → NoSuffix (c.past ts)) := by
    rw [NoSuffix, hkind]
    rcases hk with ⟨rfl, rfl⟩ | ⟨rfl, hne⟩
    · exact ⟨by decide, by simp, by simp⟩
    · exact ⟨by decide, fun _ => by decide, fun h => absurd h hne⟩
  obtain ⟨hopen, hleads⟩ := h c hf.left hmark.1 hmark.2.1 hmark.2.2
  refine ⟨hopen, fun x₀ hx₀ => ?_⟩
  obtain ⟨x, hx, htree⟩ := hleads x₀ hx₀
  obtain ⟨y, hy, hytree⟩ := hs _ hf.right hkind hadv
    (by rwa [Cursor.past_past])
    (by rw [Cursor.past_past]; exact fun h => ⟨(hnothing h).1, (hnothing h).2, hparen⟩) x htree
  rw [Cursor.past_past] at hy
  refine ⟨y, hx.step hy (hf.remaining_lt ?_), hytree⟩
  have := ho.length_pos
  simp
  omega

theorem ReadsFurther.attr {name : String}
    (h : ReadsFurther expression suffixes base .all nl e ts) (hd : Mark nl .dot ts₁)
    (hn : Name nl name ts₂) :
    ReadsFurther expression suffixes base .all nl (e.step (.attr name)) (ts ++ (ts₁ ++ ts₂)) := by
  refine h.concat hd (.inl ⟨rfl, rfl⟩) fun c hf hk ha _ _ x hx => ?_
  obtain ⟨hk₂, rfl, ha₂⟩ := hf.right.name hn
  rw [Cursor.past_past] at ha₂
  refine ⟨x.step (.attr (c.past ts₁).peek.text
    (.between c.peek.range (c.past ts₁).peek.range)), ?_, by rw [Expr.tree_step, hx]; rfl⟩
  unfold suffixStep
  simp only [reads_peekKind_bind, hk]
  refine Reads.bind ?_ (reads_pure.mpr ⟨rfl, rfl⟩)
  unfold dotSuffix
  simp only [reads_read_bind, ha, reads_peek_bind, hk₂, reads_skip_bind, ha₂, reads_pure, and_self]

theorem ReadsFurther.attributeSplat {steps : List Step}
    (h : ReadsFurther expression suffixes base .all nl e ts) (hd : Mark nl .dot ts₁)
    (hs : Mark nl .star ts₂) (hp : SplatPath nl steps ts₃) :
    ReadsFurther expression suffixes base .brackets nl
      (.splat e (steps.foldl Tree.step .element)) (ts ++ (ts₁ ++ (ts₂ ++ ts₃))) := by
  refine h.concat hd (.inl ⟨rfl, rfl⟩) fun c hf hk ha hbrackets _ x hx => ?_
  obtain ⟨hk₂, ha₂⟩ := hf.right.left.mark hs
  obtain ⟨y, hy, htree⟩ := reads_attributeSplat hp hf.right.right
    (by simpa only [Cursor.past_past, List.append_assoc] using hbrackets rfl) x c.peek
    (c.past ts₁).peek
  simp only [Cursor.past_past, List.append_assoc] at hy ha₂
  refine ⟨y, ?_, by rw [htree, hx]⟩
  unfold suffixStep
  simp only [reads_peekKind_bind, hk]
  refine Reads.bind ?_ (reads_pure.mpr ⟨rfl, rfl⟩)
  unfold dotSuffix
  simp only [reads_read_bind, ha, reads_peek_bind, hk₂, reads_skip_bind, ha₂]
  exact hy

theorem reads_indexKey (hk : ReadsTo StopsExpression expression false key ts₁)
    (hc : Mark false .closeBracket ts₂) (hf : c.Faces nl (ts₁ ++ ts₂)) :
    c.peek.kind ≠ .star ∧ ∃ x : Expr,
      (indexKey expression).Reads c x (c.past (ts₁ ++ ts₂)) ∧ x.tree = key := by
  have hf' := hf.enter false
  obtain ⟨hk₂, ha₂⟩ := hf'.right.mark hc
  obtain ⟨hs, x, hx, htree⟩ := hk _ hf'.left (by rw [hk₂]; decide)
  rw [Cursor.past_past] at ha₂
  refine ⟨fun hstar => ?_, x, ?_, htree⟩
  · -- a star would be the next token inside the brackets, too
    rw [hf.inMode.peek_enter (by simp [hstar]) (by simp [hstar]), hstar] at hs
    exact absurd hs (by decide)
  · unfold indexKey
    rw [← c.leave_past_enter false]
    refine Reads.withNewlines (hx.track_bind ?_)
    simp only [Bool.false_eq_true, if_false, reads_read_bind, hk₂, ha₂, reads_recovering_bind,
      ne_eq, not_true_eq_false, false_and, reads_pure, and_self]

/-- What follows an opening bracket that is no star. -/
theorem suffixStep_index {x : Expr} {r : Expr} {c' : Cursor} (hk : c.peek.kind = .openBracket)
    (ha : c.advance = c.past ts₁) (hstar : (c.past ts₁).peek.kind ≠ .star)
    (h : (index expression x c.peek).Reads (c.past ts₁) r c') :
    (suffixStep expression suffixes x).Reads c (r, true) c' := by
  unfold suffixStep
  simp only [reads_peekKind_bind, hk]
  refine Reads.bind ?_ (reads_pure.mpr ⟨rfl, rfl⟩)
  unfold bracketSuffix
  simpa only [reads_read_bind, ha, reads_peekKind_bind, hstar, if_false] using h

theorem ReadsFurther.constantIndex {v : Value}
    (h : ReadsFurther expression suffixes base f nl e ts) (hf : f ≠ .nothing)
    (ho : Mark nl .openBracket ts₁) (hk : ReadsTo StopsExpression expression false key ts₂)
    (hv : key.staticKey? = some v) (hc : Mark false .closeBracket ts₃) :
    ReadsFurther expression suffixes base .all nl (e.step (.index v))
      (ts ++ (ts₁ ++ (ts₂ ++ ts₃))) := by
  refine h.concat ho (.inr ⟨rfl, hf⟩) fun c hf hkind ha _ _ x hx => ?_
  obtain ⟨hstar, y, hy, htree⟩ := reads_indexKey hk hc hf.right
  rw [Cursor.past_past] at hy
  have hvalue : y.staticKey? = some v := by rw [← Expr.staticKey?_tree, htree, hv]
  refine ⟨x.step (.index v (.between c.peek.range
    (c.past (ts₁ ++ (ts₂ ++ ts₃))).previousRange)), ?_, by rw [Expr.tree_step, hx]; rfl⟩
  refine suffixStep_index hkind ha hstar ?_
  unfold Parser.index
  refine hy.bind ?_
  simp only [reads_previousRange_bind, hvalue, reads_pure, and_self]

theorem ReadsFurther.index (h : ReadsFurther expression suffixes base f nl e ts)
    (hf : f ≠ .nothing) (ho : Mark nl .openBracket ts₁)
    (hk : ReadsTo StopsExpression expression false key ts₂) (hv : key.staticKey? = none)
    (hc : Mark false .closeBracket ts₃) :
    ReadsFurther expression suffixes base .all nl (.index e key)
      (ts ++ (ts₁ ++ (ts₂ ++ ts₃))) := by
  refine h.concat ho (.inr ⟨rfl, hf⟩) fun c hf hkind ha _ _ x hx => ?_
  obtain ⟨hstar, y, hy, htree⟩ := reads_indexKey hk hc hf.right
  rw [Cursor.past_past] at hy
  have hvalue : y.staticKey? = none := by rw [← Expr.staticKey?_tree, htree, hv]
  refine ⟨.index x y c.peek.range (.between x.range (.between c.peek.range
    (c.past (ts₁ ++ (ts₂ ++ ts₃))).previousRange)), ?_, by rw [Expr.tree, hx, htree]⟩
  refine suffixStep_index hkind ha hstar ?_
  unfold Parser.index
  refine hy.bind ?_
  simp only [reads_previousRange_bind, hvalue, reads_pure, and_self]

/-- A full splat takes all suffixes that follow. -/
theorem ReadsFurther.fullSplat {each : Tree}
    (h : ReadsFurther expression suffixes base f nl e ts) (hf : f ≠ .nothing)
    (ho : Mark nl .openBracket ts₁) (hs : Mark nl .star ts₂) (hc : Mark nl .closeBracket ts₃)
    (heach : ∀ c : Cursor, c.Faces nl ts₄ → StopsOperand (c.past ts₄).peek.kind → ∀ x₀ : Expr,
      x₀.tree = .element → ∃ x : Expr, (suffixes x₀).Reads c x (c.past ts₄) ∧ x.tree = each) :
    ReadsFurther expression suffixes base .nothing nl (.splat e each)
      (ts ++ (ts₁ ++ (ts₂ ++ (ts₃ ++ ts₄)))) := by
  refine ReadsFurther.concat h ho (.inr ⟨rfl, hf⟩) fun c hf hkind ha _ hno x hx => ?_
  obtain ⟨hk₂, ha₂⟩ := hf.right.left.mark hs
  obtain ⟨hk₃, ha₃⟩ := hf.right.right.left.mark hc
  have hno' : StopsOperand ((((c.past ts₁).past ts₂).past ts₃).past ts₄).peek.kind := by
    simpa only [Cursor.past_past, List.append_assoc] using hno rfl
  obtain ⟨y, hy, htree⟩ := heach _ hf.right.right.right hno'
    (.element (.between c.peek.range (c.past (ts₁ ++ (ts₂ ++ ts₃))).previousRange)) rfl
  simp only [Cursor.past_past, List.append_assoc] at ha₂ hk₃ ha₃ hy
  refine ⟨.splat x y (.between c.peek.range (c.past (ts₁ ++ (ts₂ ++ ts₃))).previousRange)
    (.between c.peek.range (c.past (ts₁ ++ (ts₂ ++ ts₃))).previousRange)
    (.between x.range y.range), ?_, by rw [Expr.tree, hx, htree]⟩
  unfold suffixStep
  simp only [reads_peekKind_bind, hkind]
  refine Reads.bind ?_ (reads_pure.mpr ⟨rfl, rfl⟩)
  unfold bracketSuffix
  simp only [reads_read_bind, ha, reads_peekKind_bind, hk₂, if_true, reads_skip_bind, ha₂]
  unfold Parser.fullSplat
  simp only [reads_read_bind, hk₃, reads_recovering_bind, ne_eq, not_true_eq_false, false_and,
    if_false, reads_previousRange_bind, ha₃]
  exact hy.bind (reads_pure.mpr ⟨rfl, rfl⟩)

/-- All suffixes are read. -/
theorem ReadsFurther.iterate (h : ReadsFurther expression suffixes base f nl e ts)
    (hf : c.Faces nl ts) (hk : StopsOperand (c.past ts).peek.kind) :
    c.peek.kind ≠ .openParen ∧ ∀ x₀ : Expr, x₀.tree = base → ∃ x : Expr,
      (iterate (suffixStep expression suffixes) x₀).Reads c x (c.past ts) ∧ x.tree = e := by
  obtain ⟨hdot, hbracket, hparen⟩ := hk
  obtain ⟨hopen, hleads⟩ := h c hf hparen (fun _ => hdot) fun _ => ⟨hdot, hbracket⟩
  refine ⟨hopen, fun x₀ hx₀ => ?_⟩
  obtain ⟨x, hx, htree⟩ := hleads x₀ hx₀
  refine ⟨x, hx.iterate ?_, htree⟩
  unfold suffixStep
  simp only [reads_peekKind_bind, reads_pure, and_self]

end HclSyntax.Parser
