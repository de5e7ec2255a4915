import HclSyntax.Proofs.Sound.Template

namespace HclSyntax.Parser

variable {expression : Parser Expr} {opening : Token} {c₀ c : Cursor} {nl : Bool}

/-- No suffix follows. -/
def NoSuffix (c : Cursor) : Prop := c.peek.kind ≠ .dot ∧ c.peek.kind ≠ .openBracket

theorem foldl_step_relative (source : Tree) (first steps : List Step) :
    steps.foldl Tree.step (.relative source first) = .relative source (first ++ steps) := by
  induction steps generalizing first with
  | nil => simp
  | cons s steps ih => simp [Tree.step, ih]

theorem foldl_step_element {steps : List Step} (h : steps ≠ []) :
    steps.foldl Tree.step .element = .relative .element steps := by
  cases steps with
  | nil => exact absurd rfl h
  | cons s steps => exact foldl_step_relative .element [s] steps

theorem sound_splatStep (hc₀ : c₀.InMode nl) {a : SplatSteps}
    (h : ∃ ts, c₀.Passes ts c ∧ SplatPath nl (a.steps.map TraversalStep.plain) ts) :
    (splatStep a).Yields c fun r c' =>
      (∃ ts, c₀.Passes ts c' ∧ SplatPath nl (r.1.steps.map TraversalStep.plain) ts) ∧
        (r.2 = false → c'.peek.kind ≠ .dot) := by
  obtain ⟨ts, hp, hd⟩ := h
  have hc := hp.inMode hc₀
  unfold splatStep
  simp only [yields_peekKind_bind]
  split
  · rename_i hk
    rw [yields_pure]
    exact ⟨⟨ts, hp, hd⟩, fun _ => hk⟩
  rename_i hk
  obtain ⟨ts₁, hp₁, hm⟩ := hc.mark (Decidable.of_not_not hk)
  have hc₁ := hp₁.inMode hc
  simp only [yields_read_bind, yields_peek_bind]
  split
  · rename_i hi
    obtain ⟨ts₂, hp₂, hn⟩ := hc₁.name hi
    simp only [yields_skip_bind, yields_pure, List.map_append]
    exact ⟨⟨_, (hp.trans hp₁).trans hp₂, .attr hd hm hn⟩, by simp⟩
  · rename_i hi
    obtain ⟨ts₂, hp₂, hs⟩ := hc₁.sees (by simp [hi])
    simp only [yields_skip_bind]
    refine (yields_numberValue _).seq ?_
    rintro v c' ⟨⟨n, hn, hv⟩, hc'⟩
    subst hv hc'
    simp only [yields_pure, List.map_append]
    exact ⟨⟨_, (hp.trans hp₁).trans hp₂, .index hd hm hi hn hs⟩, by simp⟩
  · simp

theorem sound_attributeSplat (hc : c.InMode nl) (source : Expr) (dot star : Token) :
    (attributeSplat source dot star).Yields c fun e c' => c'.peek.kind ≠ .dot ∧
      ∃ steps ts, c.Passes ts c' ∧ SplatPath nl steps ts ∧
        e.tree = .splat source.tree (steps.foldl Tree.step .element) := by
  have h : (iterate splatStep ⟨[], star.range⟩).Yields c fun a c' => c'.peek.kind ≠ .dot ∧
      ∃ ts, c.Passes ts c' ∧ SplatPath nl (a.steps.map TraversalStep.plain) ts := by
    refine Yields.iterate (I := fun a c' =>
      ∃ ts, c.Passes ts c' ∧ SplatPath nl (a.steps.map TraversalStep.plain) ts)
      (fun a c' h => ?_) ⟨[], .refl c, .nil⟩
    refine (sound_splatStep hc h).mono fun r c'' ⟨hr, hdot⟩ => ?_
    split
    · exact hr
    · rename_i hmore
      exact ⟨hdot (by simpa using hmore), hr⟩
  unfold attributeSplat
  refine h.seq fun a c' ⟨hdot, ts, hp, hd⟩ => ?_
  rw [yields_pure]
  refine ⟨hdot, _, ts, hp, hd, ?_⟩
  rcases ha : a.steps with _ | ⟨s, steps⟩
  · simp [Expr.tree]
  · rw [foldl_step_element (by simp)]
    simp [Expr.tree]

/-- A reader of all suffixes behind an expression. -/
def ReadsSuffixes (suffixes : Expr → Parser Expr) : Prop :=
  ∀ e nl c, c.InMode nl → (suffixes e).Yields c fun x c' =>
    NoSuffix c' ∧ (x.tree.isName → x = e ∧ c' = c) ∧
      ∃ f, c.Covers (.suffixes e.tree f nl x.tree) c'

/-- The expression `e` with some suffixes behind `base`; what may follow them is respected, and
with a suffix it is no bare name. -/
def SuffixesRead (nl : Bool) (c₀ : Cursor) (base e : Expr) (c : Cursor) : Prop :=
  (e.tree.isName → e = base ∧ c = c₀) ∧ ∃ f, c₀.Covers (.suffixes base.tree f nl e.tree) c ∧
    (f = .brackets → c.peek.kind ≠ .dot) ∧ (f = .nothing → NoSuffix c)

theorem isName_step (t : Tree) {s : Step} (hs : ∀ name, s ≠ .root name) :
    (t.step s).isName = false := by
  cases t with
  | scope steps =>
    rcases steps with _ | ⟨s', steps⟩
    · cases s <;> simp_all [Tree.step, Tree.isName]
    · cases steps <;> simp [Tree.step, Tree.isName]
  | _ => rfl

theorem sound_indexKey (he : ReadsAs expression .expression) (hc : c.InMode nl) :
    (indexKey expression).Yields c fun key c' => ∃ ts ts', c.Passes (ts ++ ts') c' ∧
      Derives (.expression false key.tree) ts ∧ Mark false .closeBracket ts' := by
  have hc₁ := hc.enter false
  unfold indexKey
  rw [yields_withNewlines]
  refine (he _ _ hc₁).track_seq fun key c₂ ⟨ts, hp, hd⟩ => ?_
  simp only [Bool.false_eq_true, if_false, yields_read_bind, yields_recovering_bind]
  split
  · simp
  rename_i hk
  have hk : c₂.peek.kind = .closeBracket := by simpa using hk
  obtain ⟨ts', hp', hm⟩ := (hp.inMode hc₁).mark hk
  rw [yields_pure]
  exact ⟨ts, ts', (hp.trans hp').leave, hd, hm⟩

section
variable {base e : Expr}

theorem sound_index (he : ReadsAs expression .expression) (hc₀ : c₀.InMode nl)
    {ts ts₁ : List Token} {f : Further} {c₁ : Cursor} (hp : c₀.Passes ts c)
    (hd : Derives (.suffixes base.tree f nl e.tree) ts) (hf : f ≠ .nothing)
    (hp₁ : c.Passes ts₁ c₁) (ho : Mark nl .openBracket ts₁) :
    (index expression e opening).Yields c₁ fun x c' => SuffixesRead nl c₀ base x c' := by
  have hc₁ := hp₁.inMode (hp.inMode hc₀)
  unfold index
  refine (sound_indexKey he hc₁).seq fun key c₂ ⟨ts₂, ts₃, hp₂, hk, hm⟩ => ?_
  have hp' := (hp.trans hp₁).trans hp₂
  rw [← List.append_assoc] at hp'
  simp only [yields_previousRange_bind]
  split
  · rename_i v hv
    rw [yields_pure]
    refine ⟨by simp [Expr.tree_step, TraversalStep.plain, isName_step], .all, ⟨_, hp', ?_⟩,
      by simp, by simp⟩
    rw [Expr.tree_step]
    exact .constantIndex hd hf ho hk (by rw [Expr.staticKey?_tree, hv]) hm
  · rename_i hv
    rw [yields_pure]
    refine ⟨by simp [Expr.tree, Tree.isName], .all, ⟨_, hp', ?_⟩, by simp, by simp⟩
    exact .index hd hf ho hk (by rw [Expr.staticKey?_tree, hv]) hm

theorem sound_dotSuffix (hc₀ : c₀.InMode nl) (h : SuffixesRead nl c₀ base e c)
    (hk : c.peek.kind = .dot) :
    (dotSuffix e).Yields c fun x c' => SuffixesRead nl c₀ base x c' := by
  obtain ⟨-, f, ⟨ts, hp, hd⟩, hbrackets, hnothing⟩ := h
  have hf : f = .all := by
    cases f with
    | all => rfl
    | brackets => exact absurd hk (hbrackets rfl)
    | nothing => exact absurd hk (hnothing rfl).1
  subst hf
  have hc := hp.inMode hc₀
  obtain ⟨ts₁, hp₁, hm⟩ := hc.mark hk
  have hc₁ := hp₁.inMode hc
  unfold dotSuffix
  simp only [yields_read_bind, yields_peek_bind]
  split
  · rename_i hi
    obtain ⟨ts₂, hp₂, hn⟩ := hc₁.name hi
    simp only [yields_skip_bind, yields_pure]
    refine ⟨by simp [Expr.tree_step, TraversalStep.plain, isName_step], .all,
      ⟨_, (hp.trans hp₁).trans hp₂, ?_⟩, by simp, by simp⟩
    rw [Expr.tree_step]
    exact .attr hd hm hn
  · rename_i hi
    obtain ⟨ts₂, hp₂, hs⟩ := hc₁.mark hi
    simp only [yields_skip_bind]
    refine (sound_attributeSplat (hp₂.inMode hc₁) e _ _).mono
      fun x c' ⟨hdot, steps, ts₃, hp₃, hpath, htree⟩ => ?_
    refine ⟨by simp [htree, Tree.isName], .brackets,
      ⟨_, ((hp.trans hp₁).trans hp₂).trans hp₃, ?_⟩, fun _ => hdot, by simp⟩
    rw [htree]
    exact .attributeSplat hd hm hs hpath
  · simp

theorem sound_bracketSuffix (he : ReadsAs expression .expression) {suffixes : Expr → Parser Expr}
    (hs : ReadsSuffixes suffixes) (hc₀ : c₀.InMode nl) (h : SuffixesRead nl c₀ base e c)
    (hk : c.peek.kind = .openBracket) :
    (bracketSuffix expression suffixes e).Yields c fun x c' => SuffixesRead nl c₀ base x c' := by
  obtain ⟨-, f, ⟨ts, hp, hd⟩, -, hnothing⟩ := h
  have hf : f ≠ .nothing := fun hf => (hnothing hf).2 hk
  have hc := hp.inMode hc₀
  obtain ⟨ts₁, hp₁, ho⟩ := hc.mark hk
  have hc₁ := hp₁.inMode hc
  unfold bracketSuffix
  simp only [yields_read_bind, yields_peekKind_bind]
  split
  · rename_i hi
    obtain ⟨ts₂, hp₂, hm⟩ := hc₁.mark hi
    have hc₂ := hp₂.inMode hc₁
    unfold fullSplat
    simp only [yields_skip_bind, yields_read_bind, yields_recovering_bind]
    split
    · simp
    rename_i hcl
    have hcl : c.advance.advance.peek.kind = .closeBracket := by simpa using hcl
    obtain ⟨ts₃, hp₃, hm'⟩ := hc₂.mark hcl
    simp only [yields_previousRange_bind]
    refine (hs _ _ _ (hp₃.inMode hc₂)).seq ?_
    rintro each c' ⟨hno, _, f', ts₄, hp₄, hd'⟩
    rw [yields_pure]
    refine ⟨by simp [Expr.tree, Tree.isName], .nothing,
      ⟨_, (((hp.trans hp₁).trans hp₂).trans hp₃).trans hp₄, ?_⟩, by simp, fun _ => hno⟩
    exact .fullSplat hd hf ho hm hm' hd'
  · exact sound_index he hc₀ hp hd hf hp₁ ho

theorem sound_suffixStep (he : ReadsAs expression .expression) {suffixes : Expr → Parser Expr}
    (hs : ReadsSuffixes suffixes) (hc₀ : c₀.InMode nl) (h : SuffixesRead nl c₀ base e c) :
    (suffixStep expression suffixes e).Yields c fun r c' =>
      if r.2 then SuffixesRead nl c₀ base r.1 c'
      else NoSuffix c' ∧ (r.1.tree.isName → r.1 = base ∧ c' = c₀) ∧
        ∃ f, c₀.Covers (.suffixes base.tree f nl r.1.tree) c' := by
  unfold suffixStep
  simp only [yields_peekKind_bind]
  split
  · rename_i hk
    exact (sound_dotSuffix hc₀ h hk).seq fun x c' hx => (yields_pure _ _ _).mpr hx
  · rename_i hk
    exact (sound_bracketSuffix he hs hc₀ h hk).seq fun x c' hx => (yields_pure _ _ _).mpr hx
  · rename_i hdot hbracket
    rw [yields_pure]
    obtain ⟨hname, f, hcov, -⟩ := h
    exact ⟨⟨hdot, hbracket⟩, hname, f, hcov⟩

end

/-- Whatever `p` reads without a report is a phrase with the meaning of its answer, and a bare name
only where one stands. -/
def Faithful (p : Parser Expr) (phrase : Bool → Tree → Phrase) : Prop :=
  ∀ nl c, c.InMode nl → p.Yields c fun e c' => c.Covers (phrase nl e.tree) c' ∧ NameAt c e c'

theorem Faithful.readsAs {p : Parser Expr} {phrase : Bool → Tree → Phrase} (h : Faithful p phrase) :
    ReadsAs p phrase := fun nl c hc => (h nl c hc).mono fun _ _ => And.left

theorem Faithful.keepsNames {p : Parser Expr} {phrase : Bool → Tree → Phrase}
    (h : Faithful p phrase) : KeepsNames p := fun nl c hc => (h nl c hc).mono fun _ _ => And.right

theorem faithful_operators {tighter : Parser Expr} {level : Level} {levels : List Level}
    (hl : level.lookup .eof = none) (ht : Faithful tighter (.operators levels)) :
    Faithful (operators level tighter) (.operators (level :: levels)) := by
  intro nl c hc
  unfold operators
  refine (ht _ _ hc).track_seq ?_
  rintro lhs c₁ ⟨⟨ts, hp, hd⟩, hn⟩
  simp only [Bool.false_eq_true, if_false]
  refine Yields.iterate
    (I := fun e c' => c.Covers (.operators (level :: levels) nl e.tree) c' ∧ NameAt c e c') ?_
    ⟨⟨ts, hp, .tighter hd⟩, hn⟩
  rintro lhs c₁ ⟨⟨ts, hp, hd⟩, hn⟩
  have hc₁ := hp.inMode hc
  unfold operatorStep
  simp only [yields_peekKind_bind]
  split
  · rw [yields_pure]
    exact ⟨⟨ts, hp, hd⟩, hn⟩
  rename_i op hop
  obtain ⟨ts₁, hp₁, hm⟩ := hc₁.mark rfl (fun h => by simp [h, hl] at hop)
  simp only [yields_skip_bind]
  refine (ht _ _ (hp₁.inMode hc₁)).track_seq ?_
  rintro rhs c₂ ⟨⟨ts₂, hp₂, hd₂⟩, _⟩
  simp only [Bool.false_eq_true, if_false, yields_pure, if_true]
  exact ⟨⟨_, (hp.trans hp₁).trans hp₂, .binary hd hop hm hd₂⟩, nameAt_of_isName rfl⟩

theorem faithful_binary {operand : Parser Expr} (ho : Faithful operand .operand) :
    Faithful (binary operand) (.operators BinaryOp.levels) := by
  have hl : ∀ level ∈ BinaryOp.levels, level.lookup .eof = none := by decide
  unfold binary
  generalize BinaryOp.levels = levels at hl ⊢
  induction levels with
  | nil =>
    intro nl c hc
    exact (ho _ _ hc).mono fun e c' ⟨⟨ts, hp, hd⟩, hn⟩ => ⟨⟨ts, hp, .single hd⟩, hn⟩
  | cons level levels ih =>
    obtain ⟨h, hs⟩ := List.forall_mem_cons.mp hl
    exact faithful_operators h (ih hs)

theorem faithful_conditional {operand : Parser Expr} (he : ReadsAs expression .expression)
    (ho : Faithful operand .operand) : Faithful (conditional expression operand) .expression := by
  intro nl c hc
  unfold conditional
  simp only [yields_peek_bind]
  refine (faithful_binary ho _ _ hc).track_seq ?_
  rintro condition c₁ ⟨⟨ts₁, hp₁, hd₁⟩, hn⟩
  have hc₁ := hp₁.inMode hc
  simp only [Bool.false_eq_true, if_false, yields_peekKind_bind]
  split
  · rw [yields_pure]
    exact ⟨⟨ts₁, hp₁, .plain hd₁⟩, hn⟩
  rename_i hq
  obtain ⟨ts₂, hp₂, hm₂⟩ := hc₁.mark (Decidable.of_not_not hq)
  have hc₂ := hp₂.inMode hc₁
  simp only [yields_skip_bind]
  refine (he _ _ hc₂).track_seq ?_
  rintro ifTrue c₃ ⟨ts₃, hp₃, hd₃⟩
  have hc₃ := hp₃.inMode hc₂
  simp only [Bool.false_eq_true, if_false, yields_peek_bind]
  split
  · simp
  rename_i hcolon
  obtain ⟨ts₄, hp₄, hm₄⟩ := hc₃.mark (Decidable.of_not_not hcolon)
  simp only [yields_skip_bind]
  refine (he _ _ (hp₄.inMode hc₃)).track_seq ?_
  rintro ifFalse c₅ ⟨ts₅, hp₅, hd₅⟩
  simp only [Bool.false_eq_true, if_false, yields_pure]
  refine ⟨⟨_, (((hp₁.trans hp₂).trans hp₃).trans hp₄).trans hp₅, ?_⟩, nameAt_of_isName rfl⟩
  exact .conditional hd₁ hm₂ hd₃ hm₄ hd₅

/-- What the grammar has to be for its productions to be sound. -/
structure SoundGrammar (g : Grammar) : Prop where
  expression : Faithful (g .expression) .expression
  operand (nl : Bool) (c : Cursor) (hc : c.InMode nl) : (g .operand).Yields c fun e c' =>
    (c.Covers (.operand nl e.tree) c' ∧ NameAt c e c') ∧ NoSuffix c'
  suffixes : ReadsSuffixes fun e => g (.suffixes e)

variable {g : Grammar}

/-- What a term without its suffixes may be. An operator has taken the suffixes of its operand, and
none are left. -/
def TermRead (nl : Bool) (c : Cursor) (e : Expr) (c' : Cursor) : Prop :=
  NameAt c e c' ∧ (c.Covers (.term nl e.tree) c' ∨ c.Covers (.operand nl e.tree) c' ∧ NoSuffix c')

theorem tree_nameExpr (t : Token) : (nameExpr t).tree = .name t.text := by
  unfold nameExpr Tree.name
  split <;> simp_all [Expr.tree, TraversalStep.plain]

theorem sound_parenthesized (hg : SoundGrammar g) (hc : c.InMode nl)
    (hk : c.peek.kind = .openParen) : (parenthesized g).Yields c (TermRead nl c) := by
  obtain ⟨ts₁, hp₁, hm₁⟩ := hc.mark hk
  have hc₁ := (hp₁.inMode hc).enter false
  unfold parenthesized
  simp only [yields_read_bind, yields_withNewlines]
  refine (hg.expression.readsAs _ _ hc₁).observe_seq ?_
  rintro e c₂ ⟨ts₂, hp₂, hd⟩
  simp only [Bool.false_eq_true, if_false]
  refine (yields_closeParenthesis _).seq ?_
  rintro _ c₃ ⟨hk₃, hc₃⟩
  subst hc₃
  obtain ⟨ts₃, hp₃, hm₃⟩ := (hp₂.inMode hc₁).mark hk₃
  rw [yields_pure]
  refine ⟨fun _ => .inl hk, .inl ⟨_, hp₁.trans (hp₂.trans hp₃).leave, ?_⟩⟩
  rw [← List.append_assoc]
  exact .parens hm₁ hd hm₃

theorem sound_nameOrCall (hg : SoundGrammar g) (hc : c.InMode nl)
    (hk : c.peek.kind = .identifier) : (nameOrCall g).Yields c (TermRead nl c) := by
  obtain ⟨ts₁, hp₁, hn⟩ := hc.name hk
  have hc₁ := hp₁.inMode hc
  unfold nameOrCall
  simp only [yields_read_bind, yields_peekKind_bind]
  split
  · rename_i ho
    obtain ⟨ts₂, hp₂, hm₂⟩ := hc₁.mark ho
    simp only [yields_read_bind]
    refine (sound_call hg.expression.readsAs (hp₂.inMode hc₁) _).mono ?_
    rintro e c' ⟨a, ts, hp, hw, htree⟩
    refine ⟨nameAt_of_isName (by rw [htree]; rfl), .inl ⟨_, (hp₁.trans hp₂).trans hp, ?_⟩⟩
    rw [htree]
    cases hw with
    | listed h hcl =>
      rw [← List.append_assoc]
      exact .call hn hm₂ h hcl
    | expanded h he hx hcl =>
      rw [List.map_append, List.map_singleton]
      simpa only [List.append_assoc] using Derives.callExpanded hn hm₂ h he hx hcl
  · rw [yields_pure]
    refine ⟨fun _ => .inr ⟨hk, rfl, rfl⟩, .inl ⟨ts₁, hp₁, ?_⟩⟩
    rw [tree_nameExpr]
    exact .name hn

theorem sound_unary (hg : SoundGrammar g) (hc : c.InMode nl) {op : UnaryOp}
    (hk : c.peek.kind = op.kind) : (unary g op).Yields c (TermRead nl c) := by
  obtain ⟨ts₁, hp₁, hm₁⟩ := hc.mark hk (by cases op <;> decide)
  unfold unary
  simp only [yields_read_bind]
  refine (hg.operand _ _ (hp₁.inMode hc)).seq ?_
  rintro e c' ⟨⟨⟨ts₂, hp₂, hd⟩, _⟩, hno⟩
  rw [yields_pure]
  exact ⟨nameAt_of_isName rfl, .inr ⟨⟨_, hp₁.trans hp₂, .unary hm₁ hd⟩, hno⟩⟩

theorem isName_ofPieces (ps : List Piece) (es : List Tree) :
    (Tree.ofPieces ps es).isName = false := by
  unfold Tree.ofPieces
  split <;> rfl

theorem sound_quoted (hg : SoundGrammar g) (hc : c.InMode nl)
    (hk : c.peek.kind = .openQuote ∨ c.peek.kind = .openHeredoc) :
    (quotedTemplate (g .expression) c.peek).Yields c.advance (TermRead nl c) := by
  obtain ⟨ts₁, hp₁, hs⟩ := hc.sees (by rcases hk with h | h <;> simp [h])
  have hcl : c.peek.kind.opposite ≠ .eof := by rcases hk with h | h <;> rw [h] <;> decide
  unfold quotedTemplate
  refine (sound_template hg.expression.readsAs (hp₁.inMode hc) hcl _).mono
    fun e c' ⟨raws, es, ts, ts', hp, hd, hm, hn, htree⟩ => ?_
  refine ⟨nameAt_of_isName (by rw [htree, isName_ofPieces]), .inl ⟨_, hp₁.trans hp, ?_⟩⟩
  rw [htree, ← List.append_assoc]
  exact .quoted hk hs hd hn hm

theorem sound_term (hg : SoundGrammar g) (hc : c.InMode nl) :
    (term g).Yields c (TermRead nl c) := by
  unfold term
  simp only [yields_peek_bind]
  split
  · rename_i hk
    exact sound_parenthesized hg hc hk
  · rename_i hk
    obtain ⟨ts, hp, hs⟩ := hc.sees (by simp [hk])
    simp only [yields_skip_bind]
    refine (yields_numberValue _).seq ?_
    rintro v c' ⟨⟨n, hn, hv⟩, hc'⟩
    subst hv hc'
    rw [yields_pure]
    exact ⟨nameAt_of_isName rfl, .inl ⟨ts, hp, .number hk hn hs⟩⟩
  · rename_i hk
    exact sound_nameOrCall hg hc hk
  · rename_i hk
    simp only [yields_skip_bind]
    exact sound_quoted hg hc (.inl hk)
  · rename_i hk
    simp only [yields_skip_bind]
    exact sound_quoted hg hc (.inr hk)
  · rename_i hk
    exact sound_unary hg hc hk
  · rename_i hk
    exact sound_unary hg hc hk
  · rename_i hk
    obtain ⟨ts₁, hp₁, hm₁⟩ := hc.mark hk
    simp only [yields_skip_bind]
    refine (sound_tuple hg.expression.readsAs (hp₁.inMode hc) hk).mono ?_
    rintro e c' ⟨hne, ts, hp, hd⟩
    exact ⟨nameAt_of_isName hne, .inl ⟨_, hp₁.trans hp, hd _ _ hm₁⟩⟩
  · rename_i hk
    obtain ⟨ts₁, hp₁, hm₁⟩ := hc.mark hk
    simp only [yields_skip_bind]
    refine (sound_object hg.expression.readsAs hg.expression.keepsNames (hp₁.inMode hc) hk).mono ?_
    rintro e c' ⟨hne, ts, hp, hd⟩
    exact ⟨nameAt_of_isName hne, .inl ⟨_, hp₁.trans hp, hd _ _ hm₁⟩⟩
  · simp

theorem sound_suffixes (hg : SoundGrammar g) : ReadsSuffixes (suffixes g) := by
  intro e nl c hc
  exact Yields.iterate (I := fun x c' => SuffixesRead nl c e x c')
    (fun x c' h => sound_suffixStep hg.expression.readsAs hg.suffixes hc h)
    ⟨fun _ => ⟨rfl, rfl⟩, .all, ⟨[], .refl c, .noSuffix⟩, by simp, by simp⟩

/-- Where no suffix follows nothing is read. -/
theorem yields_suffixes_of_noSuffix (g : Grammar) (e : Expr) (h : NoSuffix c) :
    (suffixes g e).Yields c fun x c' => x = e ∧ c' = c := by
  refine Yields.iterate (I := fun x c' => x = e ∧ c' = c) ?_ ⟨rfl, rfl⟩
  rintro x c' ⟨rfl, rfl⟩
  unfold suffixStep
  simp only [yields_peekKind_bind]
  split
  · rename_i hk
    exact absurd hk h.1
  · rename_i hk
    exact absurd hk h.2
  · rw [yields_pure]
    exact ⟨rfl, rfl⟩

theorem sound_operand (hg : SoundGrammar g) (hc : c.InMode nl) :
    (operand g).Yields c fun e c' =>
      (c.Covers (.operand nl e.tree) c' ∧ NameAt c e c') ∧ NoSuffix c' := by
  refine (sound_term hg hc).seq fun base c₁ ⟨hn, h⟩ => ?_
  rcases h with ⟨ts₁, hp₁, hd₁⟩ | ⟨hcov, hno⟩
  · refine (sound_suffixes hg base nl c₁ (hp₁.inMode hc)).mono
      fun e c' ⟨hno, hname, f, ts₂, hp₂, hd₂⟩ => ?_
    refine ⟨⟨⟨_, hp₁.trans hp₂, .suffixed hd₁ hd₂⟩, fun hi => ?_⟩, hno⟩
    obtain ⟨rfl, rfl⟩ := hname hi
    exact hn hi
  · refine (yields_suffixes_of_noSuffix g base hno).mono fun e c' ⟨he, hc'⟩ => ?_
    subst he hc'
    exact ⟨⟨hcov, hn⟩, hno⟩

theorem sound_production (hg : SoundGrammar g) : SoundGrammar (production g) where
  expression := faithful_conditional hg.expression.readsAs fun _ _ hc =>
    (sound_operand hg hc).mono fun _ _ => And.left
  operand _ _ hc := sound_operand hg hc
  suffixes := sound_suffixes hg

theorem sound_grammar (depth : Nat) : SoundGrammar (grammar depth) := by
  induction depth with
  | zero => exact ⟨fun _ c _ => yields_invalid c _, fun _ c _ => yields_invalid c _,
      fun _ _ c _ => yields_invalid_bind _ c _⟩
  | succ depth ih => exact sound_production ih

theorem sound_expression : ReadsAs Parser.expression .expression := fun nl c hc =>
  ((sound_grammar (c.remaining + 1)).expression.readsAs nl c hc).congr rfl

end HclSyntax.Parser
