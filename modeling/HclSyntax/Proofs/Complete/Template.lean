import HclSyntax.Proofs.Complete.Collection
import HclSyntax.Proofs.Complete.Nesting
import HclSyntax.Proofs.Sound.Template

namespace HclSyntax.Parser

variable {expression : Parser Expr} {c : Cursor} {nl : Bool} {ts ts₁ ts₂ ts₃ : List Token}
  {e : Tree} {raws : List RawPiece}

/-- A directive is read from its keyword up to its closing marker. -/
def ReadsDirective (expression : Parser Expr) (d : Sequence) (ts : List Token) : Prop :=
  ∀ c : Cursor, c.Faces false ts → (c.past ts).peek.kind = .sequenceEnd →
    c.peek.kind = .identifier ∧ ∃ x : Directive, x.sequence = d ∧ ∀ opening,
      (directiveContent expression opening c.peek).Reads c.advance (some x) (c.past ts)

theorem readsDirective_ifStart (hi : Name false "if" ts₁)
    (he : ReadsTo StopsExpression expression false e ts₂) :
    ReadsDirective expression (.ifStart e) (ts₁ ++ ts₂) := by
  intro c hf hk
  obtain ⟨hi, htext, ha⟩ := hf.left.name hi
  obtain ⟨-, x, hx, htree⟩ := he _ hf.right (by rw [Cursor.past_past, hk]; decide)
  rw [Cursor.past_past] at hx
  refine ⟨hi, .ifStart x, by rw [Directive.sequence, htree], fun opening => ?_⟩
  unfold directiveContent
  rw [htext, ha]
  exact hx.bind (reads_pure.mpr ⟨rfl, rfl⟩)

/-- A directive that is nothing but its keyword. -/
theorem readsDirective_keyword {text : String} {x : Directive} (hn : Name false text ts)
    (hx : ∀ opening keyword : Token, keyword.text = text →
      directiveContent expression opening keyword = pure (some x)) :
    ReadsDirective expression x.sequence ts := by
  intro c hf hk
  obtain ⟨hi, htext, ha⟩ := hf.name hn
  refine ⟨hi, x, rfl, fun opening => ?_⟩
  rw [hx opening _ htext, ha]
  exact reads_pure.mpr ⟨rfl, rfl⟩

theorem reads_loopCollection (hin : Keyword false "in" ts₁)
    (he : ReadsTo StopsExpression expression false e ts₂) (hf : c.Faces false (ts₁ ++ ts₂))
    (hk : (c.past (ts₁ ++ ts₂)).peek.kind = .sequenceEnd) (key : Option String)
    (value : String) : ∃ x : Expr, x.tree = e ∧ (loopCollection expression key value).Reads c
      (some (.forStart key value x)) (c.past (ts₁ ++ ts₂)) := by
  obtain ⟨hw, ha⟩ := hf.left.keyword hin
  obtain ⟨-, x, hx, htree⟩ := he _ hf.right (by rw [Cursor.past_past, hk]; decide)
  rw [Cursor.past_past] at hx
  refine ⟨x, htree, ?_⟩
  unfold loopCollection
  simp only [reads_atKeyword_bind, hw, if_true, reads_skip_bind, ha]
  exact hx.bind (reads_pure.mpr ⟨rfl, rfl⟩)

theorem reads_loopHeader {key : Option String} {value : String} (hb : Binders key value ts₁)
    (he : ReadsTo StopsExpression expression false e ts₂) (hf : c.Faces false (ts₁ ++ ts₂))
    (hk : (c.past (ts₁ ++ ts₂)).peek.kind = .sequenceEnd) : ∃ x : Expr, x.tree = e ∧
      (loopHeader expression).Reads c (some (.forStart key value x)) (c.past (ts₁ ++ ts₂)) := by
  cases hb with
  | @value v ts₃ ts₄ hv hin =>
    rw [List.append_assoc] at hf hk ⊢
    obtain ⟨hk₁, rfl, ha₁⟩ := hf.left.name hv
    obtain ⟨hw, -⟩ := hf.right.left.keyword hin
    obtain ⟨x, htree, hx⟩ := reads_loopCollection hin he hf.right
      (by rwa [Cursor.past_past]) none c.peek.text
    rw [Cursor.past_past] at hx
    refine ⟨x, htree, ?_⟩
    unfold loopHeader
    simp only [reads_read_bind, hk₁, ne_eq, not_true_eq_false, if_false, reads_peekKind_bind, ha₁,
      Token.kind_of_isKeyword hw, reduceCtorEq, not_false_eq_true, if_true]
    exact hx
  | @keyValue k v ts₃ ts₄ ts₅ ts₆ hkey hc hv hin =>
    rw [List.append_assoc] at hf hk ⊢
    have hf₃ := hf.left
    obtain ⟨hk₁, rfl, ha₁⟩ := hf₃.left.left.name hkey
    obtain ⟨hk₂, ha₂⟩ := hf₃.left.right.mark hc
    obtain ⟨hk₃, rfl, ha₃⟩ := hf₃.right.name hv
    rw [Cursor.past_past] at ha₂ ha₃
    obtain ⟨x, htree, hx⟩ := reads_loopCollection hin he hf.right
      (by rwa [Cursor.past_past]) (some c.peek.text) (c.past (ts₃ ++ ts₄)).peek.text
    rw [Cursor.past_past] at hx
    refine ⟨x, htree, ?_⟩
    unfold loopHeader
    simp only [reads_read_bind, hk₁, ne_eq, not_true_eq_false, if_false, reads_peekKind_bind, ha₁,
      hk₂, reads_skip_bind, ha₂, hk₃, ha₃]
    exact hx

theorem readsDirective_forStart {key : Option String} {value : String} (hfor : Name false "for" ts₁)
    (hb : Binders key value ts₂) (he : ReadsTo StopsExpression expression false e ts₃) :
    ReadsDirective expression (.forStart key value e) (ts₁ ++ ts₂ ++ ts₃) := by
  intro c hf hk
  rw [List.append_assoc] at hf hk ⊢
  obtain ⟨hi, htext, ha⟩ := hf.left.name hfor
  obtain ⟨x, htree, hx⟩ := reads_loopHeader hb he hf.right (by rwa [Cursor.past_past])
  rw [Cursor.past_past] at hx
  refine ⟨hi, .forStart key value x, by rw [Directive.sequence, htree], fun opening => ?_⟩
  unfold directiveContent
  rw [htext, ha]
  exact hx

/-- The kinds that can close a template, which are none of a part. -/
def ClosesTemplate (k : TokenKind) : Prop :=
  k ≠ .quotedChunk ∧ k ≠ .plainChunk ∧ k ≠ .interpolation ∧ k ≠ .directive

/-- The parts of a template are read one by one. -/
def ReadsParts (expression : Parser Expr) (nl : Bool) (raws : List RawPiece) (ts : List Token) :
    Prop :=
  ∀ c : Cursor, c.Faces nl ts → ∀ closer start, ClosesTemplate closer → ∃ a : TemplateParts,
    a.Hold raws ∧ Leads (templateStep expression closer start) ⟨[], false⟩ c a (c.past ts)

theorem readsParts_nil : ReadsParts expression nl [] [] :=
  fun _ _ _ _ _ => ⟨⟨[], false⟩, ⟨rfl, rfl⟩, .refl⟩

theorem ReadsParts.chunk (h : ReadsParts expression nl raws ts) {t : Token} {text : String}
    (hk : t.kind = .quotedChunk ∨ t.kind = .plainChunk) (ht : Sees nl t ts₁)
    (hd : StringChunk.decode t = (text, [])) :
    ReadsParts expression nl (raws ++ [.text text]) (ts ++ ts₁) := by
  intro c hf closer start hcl
  obtain ⟨a, ha, hleads⟩ := h c hf.left closer start hcl
  obtain ⟨hpeek, hadv⟩ := hf.right.sees ht
  rw [Cursor.past_past] at hadv
  refine ⟨_, ha.text text t.range, hleads.step ?_ (hf.remaining_lt ht.length_pos)⟩
  have hchunk : (Parser.chunk t).Reads (c.past (ts ++ ts₁)) text (c.past (ts ++ ts₁)) := by
    unfold Parser.chunk
    simp only [hd, reads_tell_nil_bind, reads_pure, and_self]
  obtain ⟨hcl₁, hcl₂, -, -⟩ := hcl
  unfold templateStep
  simp only [reads_read_bind, hpeek, hadv]
  rcases hk with hk | hk
  · simp only [hk, hcl₁.symm, if_false]
    exact hchunk.bind (reads_pure.mpr ⟨rfl, rfl⟩)
  · simp only [hk, hcl₂.symm, if_false]
    exact hchunk.bind (reads_pure.mpr ⟨rfl, rfl⟩)

theorem reads_closeSequence {t : Token} (hk : t.kind = .sequenceEnd) (ht : Sees false t ts)
    (hf : c.Faces false ts) (p : Problem) (start : SourceRange) :
    (closeSequence p start).Reads c t.stripsAfter (c.past ts) := by
  obtain ⟨hpeek, hadv⟩ := hf.sees ht
  unfold closeSequence
  simp only [reads_peek_bind, hpeek, hk, if_true, reads_skip_bind, hadv, reads_pure, and_self]

theorem reads_interpolation {t : Token} (he : ReadsTo StopsExpression expression false e ts₁)
    (hk : t.kind = .sequenceEnd) (ht : Sees false t ts₂) (hf : c.Faces nl (ts₁ ++ ts₂))
    (start : SourceRange) (opening : Token) : ∃ p : TemplatePart,
      p.piece = .sequence (.interpolation e) ∧ (interpolation expression start opening).Reads c
        (p, t.stripsAfter) (c.past (ts₁ ++ ts₂)) := by
  have hf := hf.enter false
  have hpeek := (hf.right.sees ht).1
  obtain ⟨-, x, hx, htree⟩ := he _ hf.left (by rw [hpeek, hk]; decide)
  have hcl := reads_closeSequence hk ht hf.right .extraInInterpolation start
  rw [Cursor.past_past] at hcl
  refine ⟨.interpolation x (.between opening.range (c.past (ts₁ ++ ts₂)).previousRange),
    by rw [TemplatePart.piece, htree], ?_⟩
  unfold interpolation
  have hboth := hx.bind (f := fun e => do return (e, ← closeSequence .extraInInterpolation start))
    (hcl.bind (reads_pure.mpr ⟨rfl, rfl⟩))
  refine hboth.withNewlines.bind ?_
  simp only [Cursor.leave_past_enter, reads_previousRange_bind, reads_pure, and_self]

theorem reads_directive {t : Token} {d : Sequence} (hd : ReadsDirective expression d ts₁)
    (hk : t.kind = .sequenceEnd) (ht : Sees false t ts₂) (hf : c.Faces false (ts₁ ++ ts₂))
    (opening : Token) : ∃ p : TemplatePart, p.piece = .sequence d ∧
      (directive expression opening).Reads c (some p, t.stripsAfter) (c.past (ts₁ ++ ts₂)) := by
  have hpeek := (hf.right.sees ht).1
  obtain ⟨hi, x, hseq, hx⟩ := hd c hf.left (by rw [hpeek, hk])
  have hcl := reads_closeSequence hk ht hf.right (.extraInDirective c.peek.text) opening.range
  rw [Cursor.past_past] at hcl
  refine ⟨.directive x (.between opening.range (c.past (ts₁ ++ ts₂)).previousRange),
    by rw [TemplatePart.piece, hseq], ?_⟩
  unfold directive
  simp only [reads_peek_bind, hi, ne_eq, not_true_eq_false, if_false, reads_skip_bind]
  refine (hx opening).bind (hcl.bind ?_)
  simp only [reads_previousRange_bind, reads_pure, and_self]

/-- One more sequence, that is read behind its opening marker. -/
theorem ReadsParts.sequence (h : ReadsParts expression nl raws ts) {o : Token} {s : Sequence}
    {after : Bool} (ho : Sees nl o ts₁)
    (hs : ∀ c : Cursor, c.Faces nl ts₂ → ∀ closer start (a : TemplateParts), ClosesTemplate closer →
      ∃ p : TemplatePart, p.piece = .sequence s ∧ ∀ c₀ : Cursor, c₀.peek = o → c₀.advance = c →
        (templateStep expression closer start a).Reads c₀ (⟨a.before o ++ [p], after⟩, true)
          (c.past ts₂)) :
    ReadsParts expression nl (raws ++ [.sequence o.stripsBefore after s]) (ts ++ ts₁ ++ ts₂) := by
  intro c hf closer start hcl
  obtain ⟨a, ha, hleads⟩ := h c hf.left.left closer start hcl
  obtain ⟨hpeek, hadv⟩ := hf.left.right.sees ho
  rw [Cursor.past_past] at hadv
  obtain ⟨p, hp, hread⟩ := hs _ hf.right closer start a hcl
  rw [Cursor.past_past] at hread
  have hlt := hf.remaining_lt_append (Nat.add_pos_left ho.length_pos _)
  exact ⟨_, ha.sequence o hp after, hleads.step (hread _ hpeek hadv) hlt⟩

theorem ReadsParts.interpolation (h : ReadsParts expression nl raws ts) {o t : Token}
    {ts₄ : List Token} (hok : o.kind = .interpolation) (ho : Sees nl o ts₁)
    (he : ReadsTo StopsExpression expression false e ts₂) (hk : t.kind = .sequenceEnd)
    (ht : Sees false t ts₄) : ReadsParts expression nl
      (raws ++ [.sequence o.stripsBefore t.stripsAfter (.interpolation e)])
      (ts ++ ts₁ ++ (ts₂ ++ ts₄)) := by
  refine h.sequence ho fun c hf closer start a hcl => ?_
  obtain ⟨p, hp, hread⟩ := reads_interpolation he hk ht hf start o
  refine ⟨p, hp, fun c₀ hpeek hadv => ?_⟩
  unfold templateStep
  simp only [reads_read_bind, hpeek, hadv, hok, hcl.2.2.1.symm, if_false]
  exact hread.bind (reads_pure.mpr ⟨rfl, rfl⟩)

theorem ReadsParts.directive (h : ReadsParts expression nl raws ts) {o t : Token} {d : Sequence}
    {ts₄ : List Token} (hok : o.kind = .directive) (ho : Sees nl o ts₁)
    (hd : ReadsDirective expression d ts₂) (hk : t.kind = .sequenceEnd)
    (ht : Sees false t ts₄) : ReadsParts expression nl
      (raws ++ [.sequence o.stripsBefore t.stripsAfter d]) (ts ++ ts₁ ++ (ts₂ ++ ts₄)) := by
  refine h.sequence ho fun c hf closer start a hcl => ?_
  obtain ⟨p, hp, hread⟩ := reads_directive hd hk ht (hf.enter false) o
  refine ⟨p, hp, fun c₀ hpeek hadv => ?_⟩
  unfold templateStep
  simp only [reads_read_bind, hpeek, hadv, hok, hcl.2.2.2.symm, if_false]
  refine hread.withNewlines.bind ?_
  simp only [Cursor.leave_past_enter, Option.toList_some, reads_pure, and_self]

/-- A template whose directives are well nested is read, through its closing token. -/
theorem ReadsParts.template (h : ReadsParts expression nl raws ts) {closer : TokenKind}
    (hcl : ClosesTemplate closer) (hc : Mark nl closer ts₁) {es : List Tree}
    (hn : Nested (RawPiece.pieces raws) es) (hf : c.Faces nl (ts ++ ts₁)) (opening : SourceRange) :
    ∃ x : Expr, (template expression opening closer).Reads c x (c.past (ts ++ ts₁)) ∧
      x.tree = .ofPieces (RawPiece.pieces raws) es := by
  obtain ⟨a, ha, hleads⟩ := h c hf.left closer c.peek.range hcl
  obtain ⟨hk, hadv⟩ := hf.right.mark hc
  rw [Cursor.past_past] at hadv
  have hlast : (templateStep expression closer c.peek.range a).Reads (c.past ts) (a, false)
      (c.past (ts ++ ts₁)) := by
    unfold templateStep
    simp only [reads_read_bind, hk, if_true, hadv, reads_pure, and_self]
  have hpieces := ha.pieces (.point c.peek.range.filename c.peek.range.start)
  obtain ⟨xs, hparts, hxs⟩ := Nesting.ofParts_of_nested (hpieces ▸ hn)
    (.point (c.past (ts ++ ts₁)).previousRange.filename (c.past (ts ++ ts₁)).previousRange.start)
  obtain ⟨x, hx, htree⟩ := reads_templateExpr (c := c.past (ts ++ ts₁)) hparts
    (.between opening (c.past (ts ++ ts₁)).previousRange)
  refine ⟨x, ?_, by rw [htree, hpieces, hxs]⟩
  unfold Parser.template
  simp only [reads_peek_bind]
  refine (hleads.iterate hlast).bind ?_
  rw [reads_previousRange_bind]
  exact hx

end HclSyntax.Parser
