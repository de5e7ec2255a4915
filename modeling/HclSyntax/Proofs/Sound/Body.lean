import HclSyntax.Parse
import HclSyntax.Proofs.Frame
import HclSyntax.Proofs.Grammar.Lines
import HclSyntax.Proofs.Sound.Expression

namespace HclSyntax

namespace Cursor

variable {c c' : Cursor} {nl : Bool} {body ts : List Token}

/-- The tokens `body` are left, and behind them the end of the file. -/
def Ahead (c : Cursor) (body : List Token) : Prop :=
  ∃ e, c.rest = body ++ [e] ∧ e.kind = .eof ∧ ∀ t ∈ body, t.kind ≠ .eof

/-- What is passed comes before the end of the file. -/
theorem Ahead.passes (h : c.Ahead body) (hp : c.Passes ts c') :
    ∃ body', body = ts ++ body' ∧ c'.Ahead body' := by
  obtain ⟨e, hr, he, hb⟩ := h
  have hrest := hp.rest
  rw [hr] at hrest
  rcases List.eq_nil_or_concat c'.rest with hnil | ⟨body', e', hc'⟩
  · rw [hnil, List.append_nil] at hrest
    exact absurd he (hp.inside e (hrest ▸ by simp))
  · rw [hc', List.concat_eq_append, ← List.append_assoc] at hrest
    obtain ⟨rfl, he'⟩ := List.append_inj' hrest rfl
    obtain rfl := List.singleton_inj.mp he'
    exact ⟨body', rfl, e, by rw [hc', List.concat_eq_append], he,
      fun t ht => hb t (List.mem_append_right ts ht)⟩

/-- Where the file is seen to end, only hidden tokens are left. -/
theorem Ahead.hidden (h : c.Ahead body) (hc : c.InMode nl) (hk : c.peek.kind = .eof) :
    (∀ t ∈ body, t.hidden nl) ∧ c.advance.rest = [] := by
  obtain ⟨e, hr, he, hb⟩ := h
  have hsplit : body.takeWhile (Token.hidden nl) ++ body.dropWhile (Token.hidden nl) = body :=
    List.takeWhile_append_dropWhile
  rcases hd : body.dropWhile (Token.hidden nl) with _ | ⟨t, rest⟩
  · rw [hd, List.append_nil] at hsplit
    have hall : ∀ t ∈ body, t.hidden nl := by
      rw [← hsplit]
      exact List.all_eq_true.mp List.all_takeWhile
    have hs : Sees nl e (body ++ [e]) := ⟨body, rfl, hall, by simp [Token.hidden, he]⟩
    have hrest : c.rest = (body ++ [e]) ++ [] := by rw [List.append_nil, hr]
    refine ⟨hall, ?_⟩
    rw [(hc.read_sees hrest hs).2]
  · have hp : c.peek = t := by
      rw [peek, hc.hides, hr, List.dropWhile_append, hd]
      rfl
    have hm : t ∈ body := by
      rw [← hsplit, hd]
      simp
    exact absurd (hp ▸ hk) (hb t hm)

end Cursor

namespace Parser

variable {c₀ c : Cursor} {body : List Token}

/-- An item that stopped at `c` has its line ended by the step to `c'`. -/
def EndsLine (c c' : Cursor) : Prop :=
  (c.peek.kind = .newline ∨ c.peek.kind = .eof) ∧ c' = c.advance

theorem sound_attributeValue (hc : c.InMode true) (name equals : Token) (singleLine : Bool) :
    (attributeValue name equals singleLine).Yields c fun a c' => a.name = name.text ∧
      ∃ c₁, c.Covers (.expression true a.expr.tree) c₁ ∧
        if singleLine then c' = c₁ else EndsLine c₁ c' := by
  unfold attributeValue Watch.attributeValue
  refine (sound_expression _ _ hc).track_seq fun e c₁ hcov => ?_
  simp only [Bool.false_eq_true, if_false, yields_previousRange_bind]
  cases singleLine with
  | true =>
    simp only [if_true, yields_pure]
    exact ⟨trivial, c₁, hcov, rfl⟩
  | false =>
    simp only [Bool.false_eq_true, if_false]
    refine (yields_endOfLine _ _).seq fun _ c' h => ?_
    rw [yields_pure]
    exact ⟨rfl, c₁, hcov, h⟩

theorem sound_quotedString (hc : c.InMode true) (opening : Token) :
    (quotedString opening).Yields c fun r c' => ∃ ts ts', c.Passes (ts ++ ts') c' ∧
      LabelText r.1 ts ∧ Mark true .closeQuote ts' := by
  have h : (iterate (quotedStep opening) ⟨"", opening.range⟩).Yields c fun q c' =>
      ∃ ts ts', c.Passes (ts ++ ts') c' ∧ LabelText q.text ts ∧ Mark true .closeQuote ts' := by
    refine Yields.iterate (I := fun q c' => ∃ ts, c.Passes ts c' ∧ LabelText q.text ts) ?_
      ⟨[], .refl c, .nil⟩
    rintro q c₁ ⟨ts, hp, hd⟩
    have hc₁ := hp.inMode hc
    unfold quotedStep
    simp only [yields_read_bind]
    split
    · rename_i hk
      obtain ⟨ts', hp', hm⟩ := hc₁.mark hk
      simp only [yields_pure, Bool.false_eq_true, if_false]
      exact ⟨ts, ts', hp.trans hp', hd, hm⟩
    · rename_i hk
      obtain ⟨ts', hp', hs⟩ := hc₁.sees (by simp [hk])
      refine (yields_chunk _).seq ?_
      rintro text c' ⟨htext, hc'⟩
      subst hc'
      simp only [yields_pure, if_true]
      exact ⟨_, hp.trans hp', .chunk hd hk hs htext⟩
    all_goals simp
  unfold quotedString
  refine h.seq fun q c' h => ?_
  rw [yields_pure]
  exact h

/-- The labels of a block and its opening brace. -/
theorem sound_header (hc : c.InMode true) (name : Token) :
    (iterate (headerStep name) ⟨[], [], none⟩).Yields c fun h c' => h.brace.isSome ∧
      ∃ ts ts', c.Passes (ts ++ ts') c' ∧ Labels h.labels ts ∧ Mark true .openBrace ts' := by
  refine Yields.iterate (I := fun h c' => ∃ ts, c.Passes ts c' ∧ Labels h.labels ts) ?_
    ⟨[], .refl c, .nil⟩
  rintro h c₁ ⟨ts, hp, hl⟩
  have hc₁ := hp.inMode hc
  unfold headerStep Watch.headerStep
  simp only [yields_peek_bind]
  split
  · rename_i hk
    obtain ⟨ts', hp', hm⟩ := hc₁.mark hk
    simp only [yields_skip_bind, yields_pure, Bool.false_eq_true, if_false]
    exact ⟨rfl, ts, ts', hp.trans hp', hl, hm⟩
  · rename_i hk
    obtain ⟨ts₁, hp₁, hm₁⟩ := hc₁.mark hk
    simp only [yields_skip_bind]
    refine (sound_quotedString (hp₁.inMode hc₁) _).observe_seq ?_
    rintro ⟨text, range⟩ c₂ ⟨ts₂, ts₃, hp₂, ht, hm₃⟩
    simp only [Bool.false_eq_true, if_false, Bool.not_false, yields_pure, if_true]
    refine ⟨_, (hp.trans hp₁).trans hp₂, ?_⟩
    rw [← List.append_assoc]
    exact .label hl hm₁ ht hm₃
  · exact yields_reportHeader_bind _ _ _ _

/-- A parser for the bodies between the braces of blocks. -/
def ReadsBody (nested : Parser Body) : Prop :=
  ∀ c body, c.InMode true → c.Ahead body → nested.Yields c fun b c' => ∃ ts ts',
    c.Passes (ts ++ ts') c' ∧ BodyDerives (.lines b.tree) ts ∧ Mark true .closeBrace ts'

theorem sound_singleLineBody (hc : c.InMode true) : singleLineBody.Yields c fun b c' =>
    ∃ x ts, b = some x ∧ c.Passes ts c' ∧ BodyDerives (.block x.tree) ts := by
  unfold singleLineBody Watch.singleLineBody
  simp only [yields_read_bind]
  split
  · simp
  rename_i hk
  obtain ⟨ts₁, hp₁, hn⟩ := hc.name (Decidable.of_not_not hk)
  have hc₁ := hp₁.inMode hc
  simp only [yields_peek_bind]
  split
  · rename_i he
    obtain ⟨ts₂, hp₂, hm₂⟩ := hc₁.mark he
    have hc₂ := hp₂.inMode hc₁
    simp only [yields_skip_bind]
    refine (sound_attributeValue hc₂ _ _ true).seq ?_
    rintro a c₃ ⟨hname, c₃', ⟨ts₃, hp₃, hd⟩, hc₃⟩
    obtain rfl : c₃ = c₃' := hc₃
    refine yields_closeSingleLine.seq ?_
    rintro _ c₄ ⟨hk₄, hc₄⟩
    subst hc₄
    obtain ⟨ts₄, hp₄, hm₄⟩ := (hp₃.inMode hc₂).mark hk₄
    rw [yields_pure]
    refine ⟨_, _, rfl, ((hp₁.trans hp₂).trans hp₃).trans hp₄, ?_⟩
    rw [Body.tree, List.map_singleton, hname]
    exact .singleLine hn hm₂ hd hm₄
  all_goals simp

variable {nested : Parser Body}

theorem sound_blockBody (hn : ReadsBody nested) (hc : c.InMode true) (ha : c.Ahead body) :
    (blockBody nested).Yields c fun b c' =>
      ∃ x ts, b = some x ∧ c.Passes ts c' ∧ BodyDerives (.block x.tree) ts := by
  have h (hk : c.peek.kind ≠ .identifier) : (nested >>= fun b => pure (some b)).Yields c fun b c' =>
      ∃ x ts, b = some x ∧ c.Passes ts c' ∧ BodyDerives (.block x.tree) ts := by
    refine (hn c body hc ha).seq fun b c' ⟨ts, ts', hp, hd, hm⟩ => ?_
    rw [yields_pure]
    refine ⟨b, _, rfl, hp, .multiLine hd (fun hb => hk ?_) hm⟩
    have hr := hp.rest
    rw [List.append_assoc] at hr
    exact hc.peek_of_begins hr hb
  unfold blockBody Watch.blockBody
  simp only [yields_peekKind_bind]
  split
  · rename_i hk
    exact h (by simp [hk])
  · rename_i hk
    exact h (by simp [hk])
  · rename_i hk
    exact h (by simp [hk])
  · exact sound_singleLineBody hc

theorem sound_block (hn : ReadsBody nested) (hc : c.InMode true) (ha : c.Ahead body)
    (name : Token) : (block nested name).Yields c fun b c' => b.type = name.text ∧
      ∃ c₁ ts₁ ts₂ ts₃ x, c.Passes (ts₁ ++ ts₂ ++ ts₃) c₁ ∧ Labels b.labels ts₁ ∧
        Mark true .openBrace ts₂ ∧ b.body = some x ∧ BodyDerives (.block x.tree) ts₃ ∧
        EndsLine c₁ c' := by
  unfold block Watch.block
  refine (sound_header hc name).seq fun h c₁ ⟨hb, ts₁, ts₂, hp₁, hl, hm⟩ => ?_
  split
  · simp_all
  obtain ⟨body₁, -, ha₁⟩ := ha.passes hp₁
  refine (sound_blockBody hn (hp₁.inMode hc) ha₁).seq fun b c₂ ⟨x, ts₃, hx, hp₂, hd⟩ => ?_
  subst hx
  simp only [yields_previousRange_bind]
  refine (yields_endOfLine _ _).seq fun _ c₃ hend => ?_
  rw [yields_pure]
  exact ⟨rfl, c₂, ts₁, ts₂, ts₃, x, hp₁.trans hp₂, hl, hm, rfl, hd, hend⟩

/-- What the items of a body so far mean. -/
def Items.tree (items : Items) : BodyTree :=
  ⟨items.attributes.map fun a => (a.name, a.expr.tree), items.blocks.map Block.tree⟩

theorem sound_define (items : Items) (a : Attribute) (c : Cursor) :
    (items.define a).Yields c fun i c' => c' = c ∧
      i.tree = ⟨items.tree.attributes ++ [(a.name, a.expr.tree)], items.tree.blocks⟩ ∧
      ∀ x ∈ items.tree.attributes, x.1 ≠ a.name := by
  unfold Items.define
  split
  · rename_i h
    rw [yields_pure]
    refine ⟨rfl, by simp [Items.tree], ?_⟩
    simp only [Items.tree, List.mem_map]
    rintro _ ⟨x, hx, rfl⟩
    simpa using List.find?_eq_none.mp h x hx
  · simp

theorem sound_item (hn : ReadsBody nested) (hc₀ : c₀.InMode true) (ha : c₀.Ahead body)
    {name : Token} {ts₁ : List Token} (hp₁ : c₀.Passes ts₁ c) (hname : Name true name.text ts₁)
    (items : Items) : (item nested name items).Yields c fun i c' => ∃ c₁ ts, c₀.Passes ts c₁ ∧
      BodyDerives (.item items.tree i.tree) ts ∧ EndsLine c₁ c' := by
  have hc := hp₁.inMode hc₀
  obtain ⟨body₁, -, ha₁⟩ := ha.passes hp₁
  have hblock : (block nested name >>= fun b =>
      pure { items with blocks := items.blocks ++ [b] }).Yields c fun i c' => ∃ c₁ ts,
        c₀.Passes ts c₁ ∧ BodyDerives (.item items.tree i.tree) ts ∧ EndsLine c₁ c' := by
    refine (sound_block hn hc ha₁ name).seq ?_
    rintro b c' ⟨htype, c₁, ts₂, ts₃, ts₄, x, hp, hl, hm, hx, hd, hend⟩
    rw [yields_pure]
    refine ⟨c₁, _, hp₁.trans hp, ?_, hend⟩
    obtain ⟨type, labels, labelRanges, body, r₁, r₂, r₃⟩ := b
    obtain rfl : type = name.text := htype
    obtain rfl : body = some x := hx
    rw [← List.append_assoc, ← List.append_assoc]
    simpa [Items.tree, Block.tree] using BodyDerives.blockItem (b := items.tree) hname hl hm hd
  unfold item Watch.item
  simp only [Watch.idle_on, yields_peek_bind]
  split
  · rename_i hk
    obtain ⟨ts₂, hp₂, hm⟩ := hc.mark hk
    simp only [yields_skip_bind]
    refine (sound_attributeValue (hp₂.inMode hc) _ _ false).seq ?_
    rintro a c₃ ⟨hn', c₂, ⟨ts₃, hp₃, hd⟩, hend⟩
    refine (sound_define items a c₃).mono ?_
    rintro i c' ⟨hc', htree, hnew⟩
    subst hc'
    rw [hn'] at htree hnew
    refine ⟨c₂, _, (hp₁.trans hp₂).trans hp₃, ?_, hend⟩
    rw [htree]
    exact .attribute hname hm hd hnew
  · exact hblock
  · exact hblock
  · exact yields_skipItem_report_bind _ _ _ _ _ _

/-- The items read from `c₀` on are those of a file that ends at a place where this is seen. -/
def FileRead (c₀ : Cursor) (items : Items) : Prop :=
  ∃ c₁ ts, c₀.Passes ts c₁ ∧ BodyDerives (.file items.tree) ts ∧ c₁.peek.kind = .eof

/-- Lines were read from `c₀` to `c`, or the whole file. -/
def LinesRead (c₀ : Cursor) (items : Items) (c : Cursor) : Prop :=
  (∃ ts, c₀.Passes ts c ∧ BodyDerives (.lines items.tree) ts) ∨
    c.rest = [] ∧ c.eof.kind = .eof ∧ FileRead c₀ items

/-- What a body is that was read up to its closer. -/
def BodyRead (closer : TokenKind) (c₀ : Cursor) (items : Items) (c : Cursor) : Prop :=
  if closer = .eof then FileRead c₀ items
  else ∃ ts ts', c₀.Passes (ts ++ ts') c ∧ BodyDerives (.lines items.tree) ts ∧ Mark true closer ts'

theorem sound_bodyStep (hn : ReadsBody nested) {closer : TokenKind} (hc₀ : c₀.InMode true)
    (ha : c₀.Ahead body) (start : SourceRange) {items : Items} (h : LinesRead c₀ items c) :
    (bodyStep nested closer start items).Yields c fun r c' =>
      if r.2 then LinesRead c₀ r.1 c' else BodyRead closer c₀ r.1 c' := by
  unfold bodyStep Watch.bodyStep
  simp only [Watch.idle_on, yields_read_bind]
  rcases h with ⟨ts, hp, hd⟩ | ⟨hrest, heof, hfile⟩
  · have hc := hp.inMode hc₀
    obtain ⟨body₁, -, ha₁⟩ := ha.passes hp
    split
    · rename_i hk
      simp only [yields_pure, Bool.false_eq_true, if_false]
      unfold BodyRead
      split
      · rename_i he
        exact ⟨c, ts, hp, .allLines hd, hk.trans he⟩
      · rename_i he
        obtain ⟨ts', hp', hm⟩ := hc.mark hk he
        exact ⟨ts, ts', hp.trans hp', hd, hm⟩
    split
    · rename_i hk
      obtain ⟨ts', hp', hm⟩ := hc.mark hk
      simp only [yields_pure, if_true]
      exact .inl ⟨_, hp.trans hp', .emptyLine hd hm⟩
    · rename_i hk
      obtain ⟨ts₁, hp₁, hname⟩ := hc.name hk
      refine (sound_item hn hc ha₁ hp₁ hname items).seq ?_
      rintro i c' ⟨c₁, ts₂, hp₂, hitem, hend, hc'⟩
      subst hc'
      simp only [yields_pure, if_true]
      have hc₁ := hp₂.inMode hc
      rcases hend with hk | hk
      · obtain ⟨ts₃, hp₃, hm⟩ := hc₁.mark hk
        exact .inl ⟨_, (hp.trans hp₂).trans hp₃, .line hd hitem hm⟩
      · obtain ⟨body₂, -, ha₂⟩ := ha₁.passes hp₂
        have hrest := (ha₂.hidden hc₁ hk).2
        refine .inr ⟨hrest, ?_, c₁, _, hp.trans hp₂, .lastLine hd hitem, hk⟩
        rw [(Cursor.reaches_advance c₁).eof]
        exact hc₁.ends
    · exact yields_reportItem_bind _ _ _ _
  · -- the file has ended, and only it can be closed now
    have hk : c.peek.kind = .eof := by
      rw [Cursor.peek, hrest]
      exact heof
    split
    · rename_i hcl
      simp only [yields_pure, Bool.false_eq_true, if_false]
      rw [BodyRead, if_pos (hcl.symm.trans hk)]
      exact hfile
    · simp only [hk]
      exact yields_reportItem_bind _ _ _ _

theorem sound_bodyWith (hn : ReadsBody nested) (closer : TokenKind) (hc : c.InMode true)
    (ha : c.Ahead body) : (bodyWith nested closer).Yields c fun b c' =>
      ∃ items, BodyRead closer c items c' ∧ b.tree = Items.tree items := by
  unfold bodyWith Watch.bodyWith
  have h (start : SourceRange) : (iterate (bodyStep nested closer start) ⟨[], [], start⟩).Yields c
      fun items c' => BodyRead closer c items c' :=
    Yields.iterate (I := fun items c' => LinesRead c items c')
      (fun items c' h => sound_bodyStep hn hc ha start h) (.inl ⟨[], .refl c, .noLine⟩)
  refine (yields_previousRange_bind _ _ _).mpr ((h _).seq fun items c' hb => ?_)
  rw [yields_pure]
  exact ⟨items, hb, by simp [Body.tree, Items.tree]⟩

theorem sound_bodyFor (depth : Nat) : ReadsBody (bodyFor depth .closeBrace) := by
  induction depth with
  | zero => exact fun c _ _ _ => yields_invalid_bind _ c _
  | succ depth ih =>
    intro c body hc ha
    refine (sound_bodyWith ih .closeBrace hc ha).mono fun b c' ⟨items, hb, htree⟩ => ?_
    rw [htree]
    exact hb

theorem sound_body (hc : c.InMode true) (ha : c.Ahead body) :
    (Parser.body .eof).Yields c fun b _ => ∃ c₁ ts, c.Passes ts c₁ ∧
      BodyDerives (.file b.tree) ts ∧ c₁.peek.kind = .eof := by
  refine Yields.congr (p := bodyWith (bodyFor c.remaining .closeBrace) .eof) ?_ rfl
  refine (sound_bodyWith (sound_bodyFor _) .eof hc ha).mono fun b c' ⟨items, hb, htree⟩ => ?_
  rw [htree]
  exact hb

theorem sound_wholeExpression (hc : c.InMode nl) : wholeExpression.Yields c fun e _ =>
    ∃ c₁ ts, (c.enter false).Passes ts c₁ ∧ Derives (.expression false e.tree) ts ∧
      c₁.peek.kind = .eof := by
  unfold wholeExpression
  rw [yields_withNewlines]
  refine (sound_expression _ _ (hc.enter false)).seq fun e c₁ ⟨ts, hp, hd⟩ => ?_
  simp only [yields_peek_bind]
  split
  · simp
  · rename_i hk
    rw [yields_pure]
    exact ⟨c₁, ts, hp, hd, Decidable.of_not_not hk⟩

end Parser

end HclSyntax
