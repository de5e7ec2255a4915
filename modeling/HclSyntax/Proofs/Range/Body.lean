import HclSyntax.Proofs.Range.Expression

namespace HclSyntax

/-- A range between two places. -/
def SourceRange.Within (lo hi : Nat) (r : SourceRange) : Prop := lo ≤ r.lo ∧ r.hi ≤ hi

/-- An attribute whose ranges nest, between two places. -/
def Attribute.Inside (lo hi : Nat) (a : Attribute) : Prop := a.Nests ∧ a.range.Within lo hi

/-- A body whose ranges nest, between two places. -/
def Body.Inside (lo hi : Nat) (b : Body) : Prop := b.Nests ∧ b.range.Within lo hi

/-- A block whose ranges nest, between two places. -/
def Block.Inside (lo hi : Nat) (x : Block) : Prop :=
  x.range.Within lo hi ∧ ∀ y ∈ x.body, x.Holds ∧ y.Inside x.range.lo x.range.hi

namespace Parser

/-- The items lie between two places. -/
structure Items.Inside (lo hi : Nat) (items : Items) : Prop where
  attributes : ∀ a ∈ items.attributes, a.Inside lo hi
  blocks : ∀ x ∈ items.blocks, x.Inside lo hi

end Parser

variable {lo lo' hi hi' : Nat} {r : SourceRange}

theorem SourceRange.Within.mono (h : r.Within lo hi) (hl : lo' ≤ lo) (hh : hi ≤ hi') :
    r.Within lo' hi' := ⟨Nat.le_trans hl h.1, Nat.le_trans h.2 hh⟩

theorem SourceRange.Within.contains {s : SourceRange} (h : r.Within s.lo s.hi) : s.contains r :=
  SourceRange.contains_iff.mpr h

theorem SourceRange.within_self : r.Within r.lo r.hi := ⟨Nat.le_refl _, Nat.le_refl _⟩

theorem Body.nests_empty : (Body.empty r).Nests := by constructor <;> simp [Body.empty]

theorem Parser.Items.Inside.mono {items : Parser.Items} (h : items.Inside lo hi) (hh : hi ≤ hi') :
    items.Inside lo hi' :=
  ⟨fun a ha => (h.attributes a ha).imp_right (·.mono (Nat.le_refl _) hh),
    fun x hx => (h.blocks x hx).imp_left (·.mono (Nat.le_refl _) hh)⟩

/-- A body whose items lie inside of it. -/
theorem Body.nests_of_items {b : Body} (items : Parser.Items)
    (h : items.Inside b.range.lo b.range.hi) (ha : b.attributes = items.attributes)
    (hb : b.blocks = items.blocks) : b.Nests := by
  refine .mk (fun a hm => ?_) (fun x hx => ?_) (fun x hx y hy => ?_) fun x hx y hy => ?_
  · obtain ⟨hnests, hwithin⟩ := h.attributes a (ha ▸ hm)
    exact ⟨hnests, hwithin.contains⟩
  · exact (h.blocks x (hb ▸ hx)).1.contains
  · obtain ⟨hholds, -, hwithin⟩ := (h.blocks x (hb ▸ hx)).2 y hy
    exact ⟨hholds, hwithin.contains⟩
  · exact ((h.blocks x (hb ▸ hx)).2 y hy).2.1

namespace Parser

variable {c : Cursor} {name opening : Token} {items : Items} {start : SourceRange}

theorem ends_attributeValue {equals : Token} (singleLine : Bool) (hc : c.Follows name)
    (he : c.Follows equals) (hle : name.range.lo ≤ equals.range.lo) :
    Ends (attributeValue name equals singleLine) c fun a c' =>
      c.Later c' ∧ a.Inside name.range.lo c'.behind := by
  refine (lays_expression.behind framed.expression hc).track_seq fun x lost c₁ ⟨hl, hc₁, hx⟩ =>
    ends_previousRange_bind ?_
  obtain ⟨hlo, hhi⟩ := hc₁.between
  have hwithin {s : SourceRange} (h : s.Within name.range.lo c₁.behind) :
      (SourceRange.between name.range c₁.previousRange).contains s :=
    SourceRange.Within.contains (h.mono hlo.le hhi.ge)
  let a : Attribute := ⟨name.text, x, .between name.range c₁.previousRange, name.range, equals.range⟩
  have ha : a.Nests :=
    { name := hwithin ⟨Nat.le_refl _, hc₁.behind⟩
      equals := hwithin ⟨hle, (he.later hl.toLater).behind⟩
      expr := hx.nests
      whole := fun hk => hwithin ⟨hx.from_le, hx.known hk⟩ }
  have hdone {c₂ : Cursor} (hl' : c₁.Later c₂) : c.Later c₂ ∧ a.Inside name.range.lo c₂.behind :=
    ⟨hl.toLater.trans hl', ha, hlo.ge, Nat.le_trans hhi.le hl'.behind⟩
  have hend {p : Parser Unit} (hp : Framed p) : Ends (p >>= fun _ => pure a) c₁ fun a c' =>
      c.Later c' ∧ a.Inside name.range.lo c'.behind :=
    hp.after hc₁.inOrder fun _ _ hl' => arrives_pure (hdone hl'.toLater)
  dsimp only
  split
  · exact arrives_pure (hdone hc₁.inOrder.refl)
  · split
    · exact hend framed.skipItem
    · exact hend (framed.endOfLine _ fun k => by cases k <;> rfl)

theorem ends_quotedStep (q : QuotedText) (hc : c.Follows opening) :
    Ends (quotedStep opening q) c fun r c' => c'.Follows opening ∧
      (r.2 = false → r.1.stop.Within opening.range.lo c'.behind) := by
  obtain ⟨hnext, hp⟩ := hc.inOrder.next
  have hskip := hc.later hp.toLater
  -- a token that ends the string
  have hstop {c' : Cursor} (text : String) (hl : c.advance.Later c') : c'.Follows opening ∧
      (false = false → (⟨text, c.peek.range⟩ : QuotedText).stop.Within opening.range.lo c'.behind) :=
    ⟨hskip.later hl, fun _ => ⟨hc.lo_le_peek, hp.behind_eq ▸ hl.behind⟩⟩
  have hsequence (p : Problem) (x : Option SourceRange) (text : QuotedText) :
      Ends (report p c.peek.range x >>= fun _ => skipPast .sequenceEnd >>= fun _ =>
        pure (text, true)) c.advance fun r c' => c'.Follows opening ∧
          (r.2 = false → r.1.stop.Within opening.range.lo c'.behind) :=
    (still_report _ _ _).seq fun _ => (framed.skipPast _).after hskip.inOrder
      fun _ _ hl => arrives_pure ⟨hskip.later hl.toLater, by simp⟩
  refine arrives_read_bind ?_
  split
  · exact arrives_pure (hstop _ hskip.inOrder.refl)
  · exact (still_chunk _).seq fun _ => arrives_pure ⟨hskip, by simp⟩
  · exact hsequence _ _ _
  · exact hsequence _ _ _
  · exact (still_report _ _ _).seq fun _ => arrives_pure (hstop _ hskip.inOrder.refl)
  · exact (still_report _ _ _).seq fun _ => (framed.skipPast _).after hskip.inOrder
      fun _ _ hl => arrives_pure (hstop _ hl.toLater)

theorem ends_quotedString (hc : c.Follows opening) : Ends (quotedString opening) c fun r c' =>
    c.Later c' ∧ r.2.Within opening.range.lo c'.behind := by
  have hstop : Ends (iterate (quotedStep opening) ⟨"", opening.range⟩) c fun q c' =>
      c'.Follows opening ∧ q.stop.Within opening.range.lo c'.behind := by
    refine .iterate (I := fun _ c => c.Follows opening) advances_quotedStep
      (fun q c hc => (ends_quotedStep q hc).mono fun r c' h => ?_) hc.inOrder.whole.2 hc
    split
    · exact h.1
    · rename_i hr
      exact ⟨h.1, h.2 (Bool.eq_false_iff.mpr hr)⟩
  refine hstop.after hc.inOrder (framed.iterate framed.quotedStep _)
    fun q c' hl ⟨hc', hlo, hhi⟩ => arrives_pure ⟨hl.toLater, ?_, ?_⟩
  · rw [SourceRange.lo_between]
    exact Nat.le_min.mpr ⟨Nat.le_refl _, hlo⟩
  · rw [SourceRange.hi_between]
    exact Nat.max_le.mpr ⟨hc'.behind, hhi⟩

/-- The place is behind the header of a block, or a part of it. -/
structure AtHeader (name : Token) (h : BlockHeader) (c : Cursor) : Prop where
  follows : c.Follows name
  labels : ∀ r ∈ h.labelRanges, r.Within name.range.lo c.behind
  brace : ∀ t ∈ h.brace, t.range.Within name.range.lo c.behind

theorem AtHeader.later {h : BlockHeader} {c' : Cursor} (hh : AtHeader name h c)
    (hl : c.Later c') : AtHeader name h c' :=
  ⟨hh.follows.later hl, fun r hr => (hh.labels r hr).mono (Nat.le_refl _) hl.behind,
    fun t ht => (hh.brace t ht).mono (Nat.le_refl _) hl.behind⟩

theorem ends_headerStep (h : BlockHeader) (hh : AtHeader name h c) :
    Ends (headerStep name h) c fun r c' => AtHeader name r.1 c' := by
  obtain ⟨hnext, hp⟩ := hh.follows.inOrder.next
  have hskip := hh.later hp.toLater
  have hwithin : c.peek.range.Within name.range.lo c.advance.behind :=
    ⟨hh.follows.lo_le_peek, hp.behind_eq.ge⟩
  refine arrives_peek_bind ?_
  split
  · refine arrives_skip_bind (arrives_pure ⟨hskip.follows, hskip.labels, fun t ht => ?_⟩)
    obtain rfl := Option.mem_some.mp ht
    exact hwithin
  · rename_i hk
    have hopen : c.advance.Follows c.peek := hh.follows.inOrder.follows (by rw [hk]; decide)
    refine arrives_skip_bind ((ends_quotedString hopen).observe_seq
      fun label reported c₁ ⟨hl, hlabel⟩ => ?_)
    have hnext : AtHeader name ⟨h.labels ++ [label.1], h.labelRanges ++ [label.2], none⟩ c₁ := by
      refine ⟨hskip.follows.later hl, ?_, by simp⟩
      simp only [List.forall_mem_append, List.forall_mem_singleton]
      exact ⟨(hskip.later hl).labels, hlabel.mono hh.follows.lo_le_peek (Nat.le_refl _)⟩
    dsimp only
    split
    · exact framed.skipItem.after hl.inOrder fun _ _ hl => arrives_pure (hnext.later hl.toLater)
    · exact arrives_pure hnext
  · exact (still_reportHeader _ _).seq fun _ => framed.skipItem.after hh.follows.inOrder
      fun _ _ hl => arrives_pure (hh.later hl.toLater)

theorem ends_header (hc : c.Follows name) :
    Ends (iterate (headerStep name) ⟨[], [], none⟩) c (AtHeader name) :=
  .iterate (I := AtHeader name) (advances_headerStep name)
    (fun h _ hh => (ends_headerStep h hh).mono fun _ _ h => by split <;> exact h)
    hc.inOrder.whole.2 ⟨hc, by simp, by simp⟩

/-- The body on a single line lies between the token before it and the one that closes it. -/
theorem ends_singleLineBody (hc : c.InOrder) : Ends singleLineBody c fun r c' =>
    ∀ x ∈ r, x.Inside c.peek.range.lo c'.behind := by
  have hnone {p : Parser Unit} : Ends (p >>= fun _ => pure (none : Option Body)) c.advance
      fun r c' => ∀ x ∈ r, x.Inside c.peek.range.lo c'.behind :=
    Arrives.seq (P := fun _ _ => True) (fun _ _ => trivial) fun _ _ _ => arrives_pure (by simp)
  refine arrives_read_bind ?_
  split
  · exact (still_reportFirst _ _ _).seq fun _ => hnone
  rename_i hk
  have hname : c.advance.Follows c.peek := hc.follows (by rw [Decidable.of_not_not hk]; decide)
  obtain ⟨-, hp⟩ := hname.inOrder.next
  refine arrives_peek_bind ?_
  split
  · rename_i hk
    have hequals := hname.inOrder.follows (by rw [hk]; decide)
    refine arrives_skip_bind ((ends_attributeValue true (hname.later hp.toLater) hequals
      hname.lo_le_peek).seq fun a c₁ ⟨hl, ha⟩ => framed.closeSingleLine.after hl.inOrder
        fun _ c₂ hl' => arrives_pure fun x hx => ?_)
    obtain rfl := Option.mem_some.mp hx
    refine ⟨Body.nests_of_items ⟨[a], [], default⟩ ⟨?_, by simp⟩ rfl rfl,
      ha.2.mono (Nat.le_refl _) hl'.behind⟩
    simpa using ⟨ha.1, SourceRange.within_self⟩
  · exact (still_report _ _ _).seq fun _ => hnone
  · exact (still_report _ _ _).seq fun _ => hnone
  · exact (still_report _ _ _).seq fun _ => hnone
  · exact (still_report _ _ _).seq fun _ => hnone

/-- A body that is read at `c` lies between the token before it and the one that closes it. -/
def LaysBody (c : Cursor) (p : Parser Body) : Prop :=
  c.InOrder → Ends p c fun b c' => b.Inside c.previousRange.lo c'.behind

section
variable {nested : Parser Body} (hn : ∀ c, 0 < c.position → LaysBody c nested) (hf : Framed nested)
include hn

theorem ends_blockBody (hc : c.Follows name) : Ends (blockBody nested) c fun r c' =>
    ∀ x ∈ r, x.Inside name.range.lo c'.behind := by
  have hnested : Ends (nested >>= fun b => pure (some b)) c fun r c' =>
      ∀ x ∈ r, x.Inside name.range.lo c'.behind := by
    refine (hn c hc.begun hc.inOrder).seq fun b c' hb => arrives_pure fun x hx => ?_
    obtain rfl := Option.mem_some.mp hx
    have hlo : name.range.lo ≤ c.previousRange.lo :=
      (Cursor.previousRange_of_begun hc.begun).1 ▸ hc.last
    exact hb.imp_right (·.mono hlo (Nat.le_refl _))
  refine arrives_peekKind_bind ?_
  split
  · exact hnested
  · exact hnested
  · exact hnested
  · exact (ends_singleLineBody hc.inOrder).mono fun r c' h x hx =>
      (h x hx).imp_right (·.mono hc.lo_le_peek (Nat.le_refl _))

include hf

theorem ends_block (hc : c.Follows name) : Ends (block nested name) c fun x c' =>
    c.Later c' ∧ x.Inside name.range.lo c'.behind := by
  refine (ends_header hc).after hc.inOrder (framed.iterate (framed.headerStep name) _)
    fun h c₁ hl₁ hh => ?_
  split
  · refine arrives_pure ⟨hl₁.toLater, ⟨?_, ?_⟩, by simp⟩
    · exact (SourceRange.lo_between.trans (Nat.min_self _)).ge
    · exact Nat.le_trans (SourceRange.hi_between.trans (Nat.max_self _)).le hh.follows.behind
  rename_i brace hbrace
  refine (ends_blockBody hn hh.follows).after hl₁.inOrder (framed.blockBody hf)
    fun body c₂ hl₂ hbody => ends_previousRange_bind ?_
  have hh₂ := hh.later hl₂.toLater
  obtain ⟨hlo, hhi⟩ := hh₂.follows.between
  have hopen := hh₂.brace brace hbrace
  have hclose : c₂.previousRange.Within name.range.lo c₂.behind := by
    obtain ⟨hl, hb⟩ := Cursor.previousRange_of_begun hh₂.follows.begun
    exact ⟨hl ▸ hh₂.follows.last, hb.le⟩
  have hwithin {r : SourceRange} (h : r.Within name.range.lo c₂.behind) :=
    h.mono hlo.le hhi.ge
  have hinner : (body.getD (.empty (.between brace.range c₂.previousRange))).Inside
      name.range.lo c₂.behind := by
    cases body with
    | some x => exact hbody x rfl
    | none =>
      refine ⟨Body.nests_empty, ?_, ?_⟩
      · exact SourceRange.lo_between.ge.trans' (Nat.le_min.mpr ⟨hopen.1, hclose.1⟩)
      · exact SourceRange.hi_between.le.trans (Nat.max_le.mpr ⟨hopen.2, hclose.2⟩)
  refine (framed.endOfLine name fun _ => rfl).after hl₂.inOrder fun _ c₃ hl₃ => arrives_pure
    ⟨hl₁.toLater.trans (hl₂.toLater.trans hl₃.toLater),
      ⟨hlo.ge, Nat.le_trans hhi.le hl₃.behind⟩, fun y hy => ⟨⟨fun r hr => ?_, ?_, ?_⟩, ?_, ?_⟩⟩
  · exact (hwithin (hh₂.labels r hr)).contains
  · exact (hwithin hopen).contains
  · exact (hwithin hclose).contains
  all_goals obtain rfl := Option.mem_some.mp hy
  · exact hinner.1
  · exact hwithin hinner.2

omit hn hf in
theorem ends_define {a : Attribute} {lo hi : Nat} (hi' : items.Inside lo hi)
    (ha : a.Inside lo hi) : Ends (items.define a) c fun r c' => c' = c ∧ r.Inside lo hi := by
  unfold Items.define
  split
  · refine arrives_pure ⟨rfl, ?_, hi'.blocks⟩
    simpa [or_imp, forall_and] using ⟨hi'.attributes, ha⟩
  · exact (still_report _ _ _).seq fun _ => arrives_pure ⟨rfl, hi'⟩

theorem ends_item {lo : Nat} (hc : c.Follows name) (hlo : lo ≤ name.range.lo)
    (hi : items.Inside lo c.behind) : Ends (item nested name items) c fun r c' =>
      r.Inside lo c'.behind := by
  have hblock : Ends (block nested name >>= fun x =>
      pure { items with blocks := items.blocks ++ [x] }) c fun r c' => r.Inside lo c'.behind := by
    refine (ends_block hn hf hc).seq fun x c' ⟨hl, hx⟩ => arrives_pure ⟨?_, ?_⟩
    · exact (hi.mono hl.behind).attributes
    · have hx : x.Inside lo c'.behind := hx.imp_left (·.mono hlo (Nat.le_refl _))
      simpa [or_imp, forall_and] using ⟨(hi.mono hl.behind).blocks, hx⟩
  obtain ⟨-, hp⟩ := hc.inOrder.next
  refine arrives_peek_bind ?_
  split
  · rename_i hk
    have hequals := hc.inOrder.follows (by rw [hk]; decide)
    refine arrives_skip_bind ((ends_attributeValue false (hc.later hp.toLater) hequals
      hc.lo_le_peek).seq fun a c₁ ⟨hl, ha⟩ => ?_)
    have ha : a.Inside lo c₁.behind := ha.imp_right (·.mono hlo (Nat.le_refl _))
    refine (ends_define (hi.mono (hp.toLater.trans hl).behind) ha).mono ?_
    rintro r _ ⟨rfl, hr⟩
    exact hr
  · exact hblock
  · exact hblock
  · exact framed.skipItem.after hc.inOrder fun _ _ hl =>
      (still_report _ _ _).seq fun _ => arrives_pure (hi.mono hl.behind)

omit hn hf in
/-- The items of a body that begins with `start`, up to the place. -/
structure AtItem (start : SourceRange) (items : Items) (c : Cursor) : Prop where
  inOrder : c.InOrder
  lo_le : start.lo ≤ c.peek.range.lo
  hi_le : start.hi ≤ c.peek.range.hi
  inside : items.Inside start.lo c.behind

/-- The items of a body that has come to its end. -/
structure AtStop (start : SourceRange) (items : Items) (c : Cursor) : Prop where
  lo_le : start.lo ≤ items.stop.lo
  hi_le : start.hi ≤ items.stop.hi
  le_to : items.stop.hi ≤ c.behind
  inside : items.Inside start.lo items.stop.hi

omit hn hf in
theorem AtItem.stop {c' : Cursor} (h : AtItem start items c) (hl : c.advance.Later c') :
    AtStop start { items with stop := c.peek.range } c' := by
  obtain ⟨hnext, hp⟩ := h.inOrder.next
  have hinside := h.inside.mono hnext.behind
  exact ⟨h.lo_le, h.hi_le, hp.behind_eq ▸ hl.behind, hinside.attributes, hinside.blocks⟩

theorem ends_bodyStep (closer : TokenKind) (h : AtItem start items c) :
    Ends (bodyStep nested closer start items) c fun r c' =>
      if r.2 then AtItem start r.1 c' else AtStop start r.1 c' := by
  obtain ⟨-, hp⟩ := h.inOrder.next
  have hskip := h.inOrder.skip
  have hinside := h.inside.mono hskip.behind
  have hmore {items' : Items} {c' : Cursor} (hl : c.advance.Further c')
      (hi : items'.Inside start.lo c'.behind) : AtItem start items' c' :=
    ⟨hl.inOrder, Nat.le_trans h.lo_le (hskip.trans hl).peek_lo,
      Nat.le_trans h.hi_le (hskip.trans hl).peek_hi, hi⟩
  refine arrives_read_bind ?_
  split
  · exact arrives_pure (h.stop hp.inOrder.refl)
  split
  · exact arrives_pure (hmore (hp.inOrder.further (.refl _)) hinside)
  · rename_i hk
    have hname := h.inOrder.follows (by rw [hk]; decide)
    exact (ends_item hn hf hname h.lo_le hinside).after hp.inOrder
      (framed.item hf c.peek items) fun _ _ hl hi => arrives_pure (hmore hl hi)
  · exact (still_reportItem _ _).seq fun _ => (framed.skipPast _).after hp.inOrder
      fun _ _ hl => arrives_pure (h.stop hl.toLater)

theorem laysBody_bodyWith (closer : TokenKind) (c : Cursor) :
    LaysBody c (bodyWith nested closer) := by
  intro hc
  obtain ⟨hlo, hhi⟩ := hc.previous
  refine ends_previousRange_bind (Arrives.seq (P := AtStop c.previousRange) ?_
    fun items c' h => arrives_pure ?_)
  · exact .iterate (I := AtItem c.previousRange) (advances_bodyStep hf closer _)
      (fun _ _ h => ends_bodyStep hn hf closer h) hc.whole.2 ⟨hc, hlo, hhi, by simp, by simp⟩
  · have hblo := SourceRange.lo_between (r := c.previousRange) (s := items.stop)
    have hbhi := SourceRange.hi_between (r := c.previousRange) (s := items.stop)
    rw [Nat.min_eq_left h.lo_le] at hblo
    rw [Nat.max_eq_right h.hi_le] at hbhi
    refine ⟨Body.nests_of_items items ?_ rfl rfl, hblo.ge, Nat.le_trans hbhi.le h.le_to⟩
    change items.Inside (SourceRange.between _ _).lo (SourceRange.between _ _).hi
    rw [hblo, hbhi]
    exact h.inside

end

/-- Where no body is read there is room for an empty one. -/
theorem laysBody_empty (hb : 0 < c.position) :
    LaysBody c (previousRange >>= fun r => pure (.empty r)) := by
  intro _
  exact ends_previousRange_bind (arrives_pure
    ⟨Body.nests_empty, Nat.le_refl _, (Cursor.previousRange_of_begun hb).2.le⟩)

/-- Bodies lie where they were read. Those inside of others begin behind a token. -/
theorem laysBody_body (closer : TokenKind) (c : Cursor) : LaysBody c (body closer) := by
  have hnested (c : Cursor) (hb : 0 < c.position) : LaysBody c (body .closeBrace) := fun hc =>
    settles_bodies.induct (P := fun c _ p => 0 < c.position → LaysBody c p)
      (fun _ => framed.bind framed.previousRange fun _ => framed.pure _)
      (fun _ c p p' heq h hb hc b => by
        rw [heq b]
        exact h hb hc b)
      (fun _ _ hb => laysBody_empty hb)
      (fun r hf _ hr closer c _ => laysBody_bodyWith (hr .closeBrace) (hf _) closer c)
      .closeBrace hc.whole.2 hb hc
  intro hc b
  rw [settles_bodies.solves closer ⟨c, b⟩ hc.whole.2]
  exact laysBody_bodyWith hnested (settles_bodies.framed _) closer c hc b

end Parser

end HclSyntax
