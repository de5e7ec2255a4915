import HclSyntax.Proofs.Grammar.Passing
import HclSyntax.Proofs.SilentStep

namespace HclSyntax

/-- The tokens from `c` to `c'` are written for the phrase. -/
def Cursor.Covers (c : Cursor) (p : Phrase) (c' : Cursor) : Prop :=
  ∃ ts, c.Passes ts c' ∧ Derives p ts

namespace Parser

/-- Whatever `p` reads without a report is a phrase with the meaning of its answer. -/
def ReadsAs (p : Parser Expr) (phrase : Bool → Tree → Phrase) : Prop :=
  ∀ nl c, c.InMode nl → p.Yields c fun e c' => c.Covers (phrase nl e.tree) c'

variable {expression : Parser Expr} {opening : Token} {c₀ c : Cursor}

theorem sound_tupleStep (he : ReadsAs expression .expression) (hc₀ : c₀.InMode false)
    {items : List Expr} (h : c₀.Covers (.elements (items.map Expr.tree)) c) :
    (tupleStep expression opening items).Yields c fun r c' =>
      if r.2 then c₀.Covers (.elements (r.1.map Expr.tree)) c'
      else ∃ ts ts', c₀.Passes (ts ++ ts') c' ∧ Derives (.sequence (r.1.map Expr.tree)) ts ∧
        Mark false .closeBracket ts' := by
  obtain ⟨ts, hp, hd⟩ := h
  have hc := hp.inMode hc₀
  unfold tupleStep
  simp only [yields_peekKind_bind]
  split
  · rename_i hk
    obtain ⟨ts', hp', hm⟩ := hc.mark hk
    simp only [yields_skip_bind, yields_pure, Bool.false_eq_true, if_false]
    exact ⟨ts, ts', hp.trans hp', .elements hd, hm⟩
  refine (he _ _ hc).track_seq ?_
  rintro item c₁ ⟨ts₁, hp₁, hd₁⟩
  have hc₁ := hp₁.inMode hc
  simp only [Bool.false_eq_true, if_false, yields_peek_bind]
  split
  · rename_i hk
    obtain ⟨ts₂, hp₂, hm⟩ := hc₁.mark hk
    simp only [yields_skip_bind, yields_pure, Bool.false_eq_true, if_false, List.map_append]
    exact ⟨ts ++ ts₁, ts₂, (hp.trans hp₁).trans hp₂, .lastElement hd hd₁, hm⟩
  · rename_i hk
    obtain ⟨ts₂, hp₂, hm⟩ := hc₁.mark hk
    simp only [yields_skip_bind, yields_pure, if_true, List.map_append]
    exact ⟨ts ++ ts₁ ++ ts₂, (hp.trans hp₁).trans hp₂, .element hd hd₁ hm⟩
  · simp

/-- The items of a tuple and its closing bracket. -/
theorem sound_tupleItems (he : ReadsAs expression .expression) (hc : c.InMode false) :
    (iterate (tupleStep expression opening) []).Yields c fun items c' =>
      ∃ ts ts', c.Passes (ts ++ ts') c' ∧ Derives (.sequence (items.map Expr.tree)) ts ∧
        Mark false .closeBracket ts' :=
  Yields.iterate (I := fun items c' => c.Covers (.elements (items.map Expr.tree)) c')
    (fun _ _ h => sound_tupleStep he hc h) ⟨[], .refl c, .noElement⟩

/-- The arguments of a call, through the closing parenthesis. -/
inductive WrittenArguments : Arguments → List Token → Prop
  | listed {es : List Expr} {ts ts' : List Token} (h : Derives (.sequence (es.map Expr.tree)) ts)
    (hc : Mark false .closeParen ts') : WrittenArguments ⟨es, false⟩ (ts ++ ts')
  | expanded {es : List Expr} {e : Expr} {ts ts₁ ts₂ ts₃ : List Token}
    (h : Derives (.elements (es.map Expr.tree)) ts) (he : Derives (.expression false e.tree) ts₁)
    (hx : Mark false .ellipsis ts₂) (hc : Mark false .closeParen ts₃) :
    WrittenArguments ⟨es ++ [e], true⟩ (ts ++ ts₁ ++ ts₂ ++ ts₃)

theorem sound_argumentStep (he : ReadsAs expression .expression) (hc₀ : c₀.InMode false)
    {name : Token} {a : Arguments} (hx : a.expandFinal = false)
    (h : c₀.Covers (.elements (a.args.map Expr.tree)) c) :
    (argumentStep expression name opening a).Yields c fun r c' =>
      if r.2 then r.1.expandFinal = false ∧ c₀.Covers (.elements (r.1.args.map Expr.tree)) c'
      else ∃ ts, c₀.Passes ts c' ∧ WrittenArguments r.1 ts := by
  obtain ⟨es, expand⟩ := a
  obtain rfl : expand = false := hx
  obtain ⟨ts, hp, hd⟩ := h
  have hc := hp.inMode hc₀
  unfold argumentStep
  simp only [yields_peekKind_bind]
  split
  · rename_i hk
    obtain ⟨ts', hp', hm⟩ := hc.mark hk
    simp only [yields_skip_bind, yields_pure, Bool.false_eq_true, if_false]
    exact ⟨ts ++ ts', hp.trans hp', .listed (.elements hd) hm⟩
  refine (he _ _ hc).track_seq ?_
  rintro arg c₁ ⟨ts₁, hp₁, hd₁⟩
  have hc₁ := hp₁.inMode hc
  simp only [Bool.false_eq_true, if_false, yields_read_bind]
  split
  · rename_i hk
    obtain ⟨ts₂, hp₂, hm⟩ := hc₁.mark hk
    simp only [yields_pure, Bool.false_eq_true, if_false]
    refine ⟨ts ++ ts₁ ++ ts₂, (hp.trans hp₁).trans hp₂, .listed ?_ hm⟩
    rw [List.map_append]
    exact .lastElement hd hd₁
  · rename_i hk
    obtain ⟨ts₂, hp₂, hm⟩ := hc₁.mark hk
    simp only [yields_pure, if_true, List.map_append]
    exact ⟨trivial, ts ++ ts₁ ++ ts₂, (hp.trans hp₁).trans hp₂, .element hd hd₁ hm⟩
  · rename_i hk
    obtain ⟨ts₂, hp₂, hm⟩ := hc₁.mark hk
    simp only [yields_peekKind_bind]
    split
    · rename_i hk'
      obtain ⟨ts₃, hp₃, hm'⟩ := (hp₂.inMode hc₁).mark hk'
      simp only [yields_skip_bind, yields_pure, Bool.false_eq_true, if_false]
      exact ⟨_, ((hp.trans hp₁).trans hp₂).trans hp₃, .expanded hd hd₁ hm hm'⟩
    · simp
  · simp
  · simp

theorem sound_call (he : ReadsAs expression .expression) {nl : Bool} (hc : c.InMode nl)
    (name : Token) : (call expression name opening).Yields c fun e c' =>
      ∃ a ts, c.Passes ts c' ∧ WrittenArguments a ts ∧
        e.tree = .call name.text (a.args.map Expr.tree) a.expandFinal := by
  unfold call
  have h : (withNewlines false (iterate (argumentStep expression name opening) ⟨[], false⟩)).Yields
      c fun a c' => ∃ ts, c.Passes ts c' ∧ WrittenArguments a ts := by
    rw [yields_withNewlines]
    refine Yields.mono (Q := fun a c' => ∃ ts, (c.enter false).Passes ts c' ∧
      WrittenArguments a ts) ?_ fun a c' ⟨ts, hp, hw⟩ => ⟨ts, hp.leave, hw⟩
    exact Yields.iterate (I := fun a c' => a.expandFinal = false ∧
      (c.enter false).Covers (.elements (a.args.map Expr.tree)) c')
      (fun a c' h => sound_argumentStep he (hc.enter false) h.1 h.2)
      ⟨rfl, [], .refl _, .noElement⟩
  refine h.seq fun a c' ⟨ts, hp, hw⟩ => ?_
  simp only [yields_previousRange_bind, yields_pure]
  exact ⟨a, ts, hp, hw, by simp [Expr.tree]⟩

/-- If the expression `e` that was read from `c` to `c'` is a bare name, it is one in parentheses or
the name that stands at `c`. -/
def NameAt (c : Cursor) (e : Expr) (c' : Cursor) : Prop :=
  e.tree.isName → c.peek.kind = .openParen ∨
    c.peek.kind = .identifier ∧ e = nameExpr c.peek ∧ c' = c.advance

theorem nameAt_of_isName {e : Expr} {c' : Cursor} (h : e.tree.isName = false) : NameAt c e c' := by
  intro h'
  rw [h] at h'
  exact absurd h' (by decide)

/-- A parser of expressions that gives a bare name only where one stands. -/
def KeepsNames (p : Parser Expr) : Prop :=
  ∀ nl c, c.InMode nl → p.Yields c fun e c' => NameAt c e c'

theorem objectKey_of_isName {key : Expr} (h : key.tree.isName = false) (start : Token) :
    objectKey key start = key := by
  unfold objectKey
  split
  · simp [Expr.tree, Tree.isName] at h
  · simp [Expr.tree, Tree.isName] at h
  · simp [Expr.tree, Tree.isName, TraversalStep.plain] at h
  · rfl

theorem objectKey_nameExpr {t : Token} (h : t.kind = .identifier) :
    (objectKey (nameExpr t) t).tree = .literal (.string t.text) := by
  unfold nameExpr
  split <;> simp_all [objectKey, Expr.tree]

/-- The key of an item: a name for itself, or an expression. -/
theorem sound_key {key : Expr} {c' : Cursor} (hc : c.InMode true)
    (h : c.Covers (.expression true key.tree) c') (hn : NameAt c key c') :
    c.Covers (.key (if c.peek.kind = .openParen then key else objectKey key c.peek).tree) c' := by
  obtain ⟨ts, hp, hd⟩ := h
  split
  · rename_i hk
    refine ⟨ts, hp, .expressionKey hd fun _ hb => ?_⟩
    have hi := hc.peek_of_begins hp.rest hb
    simp [hk] at hi
  rename_i hk
  cases hname : key.tree.isName with
  | false =>
    rw [objectKey_of_isName hname]
    exact ⟨ts, hp, .expressionKey hd (by simp [hname])⟩
  | true =>
    obtain ⟨hi, rfl, rfl⟩ := (hn hname).resolve_left hk
    rw [objectKey_nameExpr hi]
    obtain ⟨ts', hp', hname⟩ := hc.name hi
    exact ⟨ts', hp', .bareKey hname⟩

theorem sound_objectItem (he : ReadsAs expression .expression) (hk : KeepsNames expression)
    (hc₀ : c₀.InMode true) {items : List (Expr × Expr)}
    (h : c₀.Covers (.items (items.map fun i => (i.1.tree, i.2.tree))) c) :
    (objectItem expression opening items).Yields c fun r c' =>
      if r.2 then c₀.Covers (.items (r.1.map fun i => (i.1.tree, i.2.tree))) c'
      else ∃ ts ts', c₀.Passes (ts ++ ts') c' ∧
        Derives (.fields (r.1.map fun i => (i.1.tree, i.2.tree))) ts ∧
        Mark true .closeBrace ts' := by
  obtain ⟨ts, hp, hd⟩ := h
  have hc := hp.inMode hc₀
  unfold objectItem
  simp only [yields_peek_bind]
  refine ((he _ _ hc).and (hk _ _ hc)).track_seq ?_
  rintro key c₁ ⟨hcov, hn⟩
  obtain ⟨ts₁, hp₁, hd₁⟩ := sound_key hc hcov hn
  have hc₁ := hp₁.inMode hc
  simp only [Bool.false_eq_true, if_false, yields_peek_bind]
  split
  · simp
  rename_i hsep
  have hsep : c₁.peek.kind = .assign ∨ c₁.peek.kind = .colon := by
    rcases Decidable.em (c₁.peek.kind = .assign) with ha | ha
    · exact .inl ha
    · exact .inr (Decidable.of_not_not fun hcolon => hsep ⟨ha, hcolon⟩)
  simp only [yields_skip_bind]
  obtain ⟨ts₂, hp₂, hs₂⟩ := hc₁.sees (by rcases hsep with h | h <;> simp [h])
  refine (he _ _ (hp₂.inMode hc₁)).track_seq ?_
  rintro value c₂ ⟨ts₃, hp₃, hd₃⟩
  have hc₂ := hp₃.inMode (hp₂.inMode hc₁)
  have hitem : Derives (.item (if c.peek.kind = .openParen then key
      else objectKey key c.peek).tree value.tree) (ts₁ ++ ts₂ ++ ts₃) := by
    rcases hsep with h | h
    · exact .equalsItem hd₁ ⟨_, h, hs₂⟩ hd₃
    · exact .colonItem hd₁ ⟨_, h, hs₂⟩ hd₃
  have hp' := hp.trans ((hp₁.trans hp₂).trans hp₃)
  simp only [Bool.false_eq_true, if_false]
  refine (yields_objectSeparator opening).seq ?_
  rintro more c₃ ⟨hc₃, hm⟩
  subst hc₃
  simp only [yields_pure, List.map_append]
  rcases hm with ⟨hm, rfl⟩ | ⟨hm, rfl⟩
  · obtain ⟨ts₄, hp₄, hm⟩ := hc₂.mark hm
    exact ⟨_, ts₄, hp'.trans hp₄, .lastItem hd hitem, hm⟩
  · rcases hm with hm | hm
    · obtain ⟨ts₄, hp₄, hm⟩ := hc₂.mark hm
      exact ⟨_, hp'.trans hp₄, .commaItem hd hitem hm⟩
    · obtain ⟨ts₄, hp₄, hm⟩ := hc₂.mark hm
      exact ⟨_, hp'.trans hp₄, .lineItem hd hitem hm⟩

theorem sound_objectStep (he : ReadsAs expression .expression) (hk : KeepsNames expression)
    (hc₀ : c₀.InMode true) {items : List (Expr × Expr)}
    (h : c₀.Covers (.items (items.map fun i => (i.1.tree, i.2.tree))) c) :
    (objectStep expression opening items).Yields c fun r c' =>
      if r.2 then c₀.Covers (.items (r.1.map fun i => (i.1.tree, i.2.tree))) c'
      else ∃ ts ts', c₀.Passes (ts ++ ts') c' ∧
        Derives (.fields (r.1.map fun i => (i.1.tree, i.2.tree))) ts ∧
        Mark true .closeBrace ts' := by
  unfold objectStep
  simp only [yields_peekKind_bind]
  split
  · rename_i hn
    obtain ⟨ts, hp, hd⟩ := h
    obtain ⟨ts₁, hp₁, hm⟩ := (hp.inMode hc₀).mark hn
    simp only [yields_skip_bind, yields_pure, if_true]
    exact ⟨ts ++ ts₁, hp.trans hp₁, .emptyLine hd hm⟩
  · rename_i hn
    obtain ⟨ts, hp, hd⟩ := h
    obtain ⟨ts₁, hp₁, hm⟩ := (hp.inMode hc₀).mark hn
    simp only [yields_skip_bind, yields_pure, Bool.false_eq_true, if_false]
    exact ⟨ts, ts₁, hp.trans hp₁, .items hd, hm⟩
  · exact sound_objectItem he hk hc₀ h

/-- The items of an object and its closing brace. -/
theorem sound_objectItems (he : ReadsAs expression .expression) (hk : KeepsNames expression)
    (hc : c.InMode true) : (iterate (objectStep expression opening) []).Yields c fun items c' =>
      ∃ ts ts', c.Passes (ts ++ ts') c' ∧
        Derives (.fields (items.map fun i => (i.1.tree, i.2.tree))) ts ∧
        Mark true .closeBrace ts' :=
  Yields.iterate (I := fun items c' => c.Covers (.items (items.map fun i => (i.1.tree, i.2.tree))) c')
    (fun _ _ h => sound_objectStep he hk hc h) ⟨[], .refl c, .noItem⟩

/-- The condition of a comprehension. -/
theorem sound_filter (he : ReadsAs expression .expression) (hc : c.InMode false) :
    (filter expression).Yields c fun condition c' =>
      c.Covers (.filter (condition.map Expr.tree)) c' := by
  unfold filter
  simp only [yields_atKeyword_bind]
  split
  · rename_i hk
    obtain ⟨ts₁, hp₁, hif⟩ := hc.keyword hk
    simp only [yields_skip_bind]
    refine (he _ _ (hp₁.inMode hc)).seq ?_
    rintro e c' ⟨ts₂, hp₂, hd⟩
    rw [yields_pure]
    exact ⟨ts₁ ++ ts₂, hp₁.trans hp₂, .someFilter hif hd⟩
  · rw [yields_pure]
    exact ⟨[], .refl c, .noFilter⟩

theorem sound_binders (hc : c.InMode false) : (binders opening).Yields c fun names c' =>
    ∃ k v ts, names = some (k, v) ∧ c.Passes ts c' ∧ Binders k v ts := by
  refine (yields_binders opening).mono fun names c' ⟨hk, h⟩ => ?_
  obtain ⟨ts₁, hp₁, hn₁⟩ := hc.name hk
  have hc₁ := hp₁.inMode hc
  rcases h with ⟨hcomma, hk₂, hin, hnames, hc'⟩ | ⟨hin, hnames, hc'⟩
  · obtain ⟨ts₂, hp₂, hm⟩ := hc₁.mark hcomma
    have hc₂ := hp₂.inMode hc₁
    obtain ⟨ts₃, hp₃, hn₃⟩ := hc₂.name hk₂
    obtain ⟨ts₄, hp₄, hkw⟩ := (hp₃.inMode hc₂).keyword hin
    exact ⟨_, _, _, hnames, hc' ▸ ((hp₁.trans hp₂).trans hp₃).trans hp₄,
      .keyValue hn₁ hm hn₃ hkw⟩
  · obtain ⟨ts₂, hp₂, hkw⟩ := hc₁.keyword hin
    exact ⟨_, _, _, hnames, hc' ▸ hp₁.trans hp₂, .value hn₁ hkw⟩

/-- What follows the colon of a comprehension, through the closing bracket: with its key, its
value, its condition, and whether there are groups. -/
inductive WrittenResult (opening : TokenKind) :
    Option Tree → Tree → Option Tree → Bool → List Token → Prop
  | tuple {v : Tree} {cond : Option Tree} {ts₁ ts₂ ts₃ : List Token} (ho : opening = .openBracket)
    (hv : Derives (.expression false v) ts₁) (hf : Derives (.filter cond) ts₂)
    (hc : Mark false .closeBracket ts₃) : WrittenResult opening none v cond false (ts₁ ++ ts₂ ++ ts₃)
  | object {k v : Tree} {cond : Option Tree} {ts₁ ts₂ ts₃ ts₄ ts₅ : List Token}
    (ho : opening = .openBrace) (hk : Derives (.expression false k) ts₁)
    (ha : Mark false .fatArrow ts₂) (hv : Derives (.expression false v) ts₃)
    (hf : Derives (.filter cond) ts₄) (hc : Mark false .closeBrace ts₅) :
    WrittenResult opening (some k) v cond false (ts₁ ++ ts₂ ++ ts₃ ++ ts₄ ++ ts₅)
  | groups {k v : Tree} {cond : Option Tree} {ts₁ ts₂ ts₃ ts₄ ts₅ ts₆ : List Token}
    (ho : opening = .openBrace) (hk : Derives (.expression false k) ts₁)
    (ha : Mark false .fatArrow ts₂) (hv : Derives (.expression false v) ts₃)
    (hx : Mark false .ellipsis ts₄) (hf : Derives (.filter cond) ts₅)
    (hc : Mark false .closeBrace ts₆) :
    WrittenResult opening (some k) v cond true (ts₁ ++ ts₂ ++ ts₃ ++ ts₄ ++ ts₅ ++ ts₆)

/-- The key, if there is one, and the value. -/
theorem sound_resultPair (he : ReadsAs expression .expression) (hc : c.InMode false) :
    (resultPair expression).Yields c fun r c' => ∃ ts, c.Passes ts c' ∧
      ((∃ k ts₁ ts₂ ts₃, r.1 = some k ∧ ts = ts₁ ++ ts₂ ++ ts₃ ∧
        Derives (.expression false k.tree) ts₁ ∧ Mark false .fatArrow ts₂ ∧
        Derives (.expression false r.2.tree) ts₃) ∨
      r.1 = none ∧ Derives (.expression false r.2.tree) ts) := by
  unfold resultPair
  refine (he _ _ hc).seq ?_
  rintro first c₁ ⟨ts₁, hp₁, hd₁⟩
  have hc₁ := hp₁.inMode hc
  simp only [yields_peekKind_bind]
  split
  · rename_i hk
    obtain ⟨ts₂, hp₂, hm⟩ := hc₁.mark hk
    simp only [yields_skip_bind]
    refine (he _ _ (hp₂.inMode hc₁)).seq ?_
    rintro value c₂ ⟨ts₃, hp₃, hd₃⟩
    rw [yields_pure]
    exact ⟨_, (hp₁.trans hp₂).trans hp₃, .inl ⟨_, _, _, _, rfl, rfl, hd₁, hm, hd₃⟩⟩
  · rw [yields_pure]
    exact ⟨ts₁, hp₁, .inr ⟨rfl, hd₁⟩⟩

theorem sound_comprehensionResult (he : ReadsAs expression .expression) (hc : c.InMode false)
    (hkind : opening.kind = .openBracket ∨ opening.kind = .openBrace) (keyVar : Option String)
    (valueVar : String) (collection : Expr) :
    (comprehensionResult expression opening keyVar valueVar collection).Yields c fun e c' =>
      ∃ ts key value cond group, c.Passes ts c' ∧
        WrittenResult opening.kind key value cond group ts ∧
        e.tree = .comprehension keyVar valueVar collection.tree key value cond group := by
  unfold comprehensionResult
  refine (sound_resultPair he hc).track_seq ?_
  rintro ⟨key, value⟩ c₁ ⟨ts₁, hp₁, hpair⟩
  have hc₁ := hp₁.inMode hc
  simp only [Bool.false_eq_true, if_false]
  refine yields_groupingEllipsis.seq fun ellipsis c₂ hx => ?_
  have hx : ∃ ts₂, c₁.Passes ts₂ c₂ ∧ (ellipsis.isSome ∧ Mark false .ellipsis ts₂ ∨
      ellipsis = none ∧ ts₂ = []) := by
    rcases hx with ⟨hk, rfl, rfl⟩ | ⟨-, rfl, rfl⟩
    · obtain ⟨ts₂, hp₂, hm⟩ := hc₁.mark hk
      exact ⟨ts₂, hp₂, .inl ⟨rfl, hm⟩⟩
    · exact ⟨[], .refl _, .inr ⟨rfl, rfl⟩⟩
  obtain ⟨ts₂, hp₂, hx⟩ := hx
  have hc₂ := hp₂.inMode hc₁
  refine (sound_filter he hc₂).track_seq ?_
  rintro cond c₃ ⟨ts₃, hp₃, hf⟩
  have hc₃ := hp₃.inMode hc₂
  simp only [Bool.false_eq_true, if_false]
  refine (yields_closeComprehension opening).seq ?_
  rintro close c₄ ⟨hk, hc₄, _⟩
  subst hc₄
  obtain ⟨ts₄, hp₄, hm⟩ := hc₃.mark hk (by rcases hkind with h | h <;> simp [h, TokenKind.opposite])
  refine (yields_checkResult _ _ _ _ _).seq ?_
  rintro _ c₅ ⟨hc₅, hr⟩
  subst hc₅
  rw [yields_pure]
  have hp := ((hp₁.trans hp₂).trans hp₃).trans hp₄
  refine ⟨_, key.map Expr.tree, value.tree, cond.map Expr.tree, ellipsis.isSome, hp, ?_,
    by simp [Expr.tree]⟩
  rcases hr with ⟨ho, hkey⟩ | ⟨ho, rfl, rfl⟩
  · rcases hpair with ⟨k, ts₅, ts₆, ts₇, rfl, rfl, hd, ha, hd'⟩ | ⟨rfl, -⟩
    · rw [ho, TokenKind.opposite] at hm
      rcases hx with ⟨hs, hm'⟩ | ⟨rfl, rfl⟩
      · rw [hs]
        exact .groups ho hd ha hd' hm' hf hm
      · rw [List.append_nil]
        exact .object ho hd ha hd' hf hm
    · simp at hkey
  · have ho := hkind.resolve_right ho
    rw [ho, TokenKind.opposite] at hm
    rcases hpair with ⟨k, _, _, _, hk, -⟩ | ⟨-, hd⟩
    · simp at hk
    · rcases hx with ⟨hs, -⟩ | ⟨-, rfl⟩
      · simp at hs
      · rw [List.append_nil]
        exact .tuple ho hd hf hm

/-- A comprehension from its keyword on, behind a bracket inside of which newlines count as told. -/
theorem sound_comprehension (he : ReadsAs expression .expression) {nl : Bool} (hc : c.InMode nl)
    (hk : c.peek.isKeyword "for")
    (hkind : opening.kind = .openBracket ∧ nl = false ∨ opening.kind = .openBrace ∧ nl = true) :
    (comprehension expression opening).Yields c fun e c' => e.tree.isName = false ∧
      ∃ ts, c.Passes ts c' ∧ ∀ outer ts₀, Mark outer opening.kind ts₀ →
        Derives (.term outer e.tree) (ts₀ ++ ts) := by
  unfold comprehension
  obtain ⟨ts₁, hp₁, hfor⟩ := hc.keyword_enter hk
  have hc₁ := hp₁.inMode (hc.enter false)
  simp only [yields_withNewlines, yields_skip_bind]
  refine (sound_binders hc₁).seq ?_
  rintro names c₂ ⟨k, v, ts₂, hnames, hp₂, hb⟩
  subst hnames
  have hc₂ := hp₂.inMode hc₁
  refine (he _ _ hc₂).track_seq ?_
  rintro collection c₃ ⟨ts₃, hp₃, hd₃⟩
  have hc₃ := hp₃.inMode hc₂
  simp only [Bool.false_eq_true, if_false, yields_peekKind_bind]
  split
  · exact yields_reportComprehension_bind _ _ _ _
  rename_i hcolon
  obtain ⟨ts₄, hp₄, hm⟩ := hc₃.mark (Decidable.of_not_not hcolon)
  have hc₄ := hp₄.inMode hc₃
  simp only [yields_skip_bind]
  refine (sound_comprehensionResult he hc₄ (hkind.imp And.left And.left) k v collection).mono ?_
  rintro e c₅ ⟨ts₅, key, value, cond, group, hp₅, hw, htree⟩
  refine ⟨by rw [htree]; rfl, _, ((((hp₁.trans hp₂).trans hp₃).trans hp₄).trans hp₅).leave,
    fun outer ts₀ ho => ?_⟩
  rw [htree]
  cases hw with
  | tuple hkind' hv hf hcl =>
    obtain rfl : nl = false := by simpa [hkind'] using hkind
    rw [hkind'] at ho
    simpa only [List.append_assoc] using Derives.tupleFor ho hfor hb hd₃ hm hv hf hcl
  | object hkind' hkey ha hv hf hcl =>
    obtain rfl : nl = true := by simpa [hkind'] using hkind
    rw [hkind'] at ho
    simpa only [List.append_assoc] using Derives.objectFor ho hfor hb hd₃ hm hkey ha hv hf hcl
  | groups hkind' hkey ha hv hx hf hcl =>
    obtain rfl : nl = true := by simpa [hkind'] using hkind
    rw [hkind'] at ho
    simpa only [List.append_assoc] using
      Derives.objectForGroups ho hfor hb hd₃ hm hkey ha hv hx hf hcl

theorem sound_tuple (he : ReadsAs expression .expression) {nl : Bool} (hc : c.InMode nl)
    (ho : opening.kind = .openBracket) :
    (tuple expression opening).Yields c fun e c' => e.tree.isName = false ∧
      ∃ ts, c.Passes ts c' ∧ ∀ outer ts₀, Mark outer .openBracket ts₀ →
        Derives (.term outer e.tree) (ts₀ ++ ts) := by
  have hc' := hc.enter false
  unfold tuple
  simp only [yields_withNewlines, yields_atKeyword_bind]
  split
  · rename_i hk
    refine (sound_comprehension he hc' hk (.inl ⟨ho, rfl⟩)).mono ?_
    rintro e c' ⟨hne, ts, hp, hd⟩
    exact ⟨hne, ts, hp.leave, ho ▸ hd⟩
  rename_i hk
  refine (sound_tupleItems he hc').seq ?_
  rintro items c' ⟨ts, ts', hp, hd, hm⟩
  simp only [yields_previousRange_bind, yields_pure]
  refine ⟨rfl, _, hp.leave, fun outer ts₀ hb => ?_⟩
  rw [Expr.tree, Expr.treeAll_eq, ← List.append_assoc]
  refine .tuple hb hd (fun h => hk ?_) hm
  have hr := hp.rest
  rw [List.append_assoc] at hr
  exact hc'.peek_of_begins hr h

theorem sound_object (he : ReadsAs expression .expression) (hn : KeepsNames expression) {nl : Bool}
    (hc : c.InMode nl) (ho : opening.kind = .openBrace) :
    (object expression opening).Yields c fun e c' => e.tree.isName = false ∧
      ∃ ts, c.Passes ts c' ∧ ∀ outer ts₀, Mark outer .openBrace ts₀ →
        Derives (.term outer e.tree) (ts₀ ++ ts) := by
  have hc' := hc.enter true
  unfold object
  simp only [yields_withNewlines, yields_atKeyword_bind]
  split
  · rename_i hk
    refine (sound_comprehension he hc' hk (.inr ⟨ho, rfl⟩)).mono ?_
    rintro e c' ⟨hne, ts, hp, hd⟩
    exact ⟨hne, ts, hp.leave, ho ▸ hd⟩
  rename_i hk
  refine (sound_objectItems he hn hc').seq ?_
  rintro items c' ⟨ts, ts', hp, hd, hm⟩
  simp only [yields_previousRange_bind, yields_pure]
  refine ⟨rfl, _, hp.leave, fun outer ts₀ hb => ?_⟩
  rw [Expr.tree, Expr.treeItems_eq, ← List.append_assoc]
  refine .object hb hd (fun h => hk ?_) hm
  have hr := hp.rest
  rw [List.append_assoc] at hr
  exact hc'.peek_of_begins hr h

end Parser

end HclSyntax
