import HclSyntax.Proofs.Range.Nesting
import HclSyntax.Proofs.Range.Collection

namespace HclSyntax

open SourceRange (Row)

theorem TemplatePart.map_range_trimLast (parts : List TemplatePart) :
    (trimLast parts).map (·.range) = parts.map (·.range) := by
  unfold trimLast
  split
  · rename_i value r h
    obtain ⟨front, rfl⟩ := List.getLast?_eq_some_iff.mp h
    simp [TemplatePart.range]
  · rfl

theorem TemplatePart.holds_trimLast {parts : List TemplatePart} (h : ∀ p ∈ parts, p.Holds) :
    ∀ p ∈ trimLast parts, p.Holds := by
  unfold trimLast
  split
  · rintro p hp
    rcases List.mem_append.mp hp with hp | hp
    · exact h p (List.dropLast_subset _ hp)
    · obtain rfl := List.mem_singleton.mp hp
      simp [Holds, expr?]
  · exact h

namespace Parser

variable {c : Cursor} {opening : Token} {e : Parser Expr}

theorem ends_closeSequence (p : Problem) (start : SourceRange) (hc : c.InOrder) :
    Ends (closeSequence p start) c fun _ c' => c.advance.Further c' := by
  refine arrives_peek_bind ?_
  split
  · exact arrives_skip_bind (arrives_pure (hc.skip.inOrder.further (.refl _)))
  · exact (still_reportFirst _ _ _).seq fun _ =>
      (passes_skipPast _).after hc fun _ _ hl => arrives_pure hl

/-- A part between a token and the place where it was read. -/
def Fits (opening : Token) (p : TemplatePart) (c : Cursor) : Prop :=
  p.Holds ∧ p.range.lo = opening.range.lo ∧ p.range.hi = c.behind

section
variable (he : Lays e) (hf : Framed e)
include he hf

/-- What a directive says, all of it behind its opening marker. -/
def Says (opening : Token) (d : Option Directive) (c : Cursor) : Prop :=
  c.Follows opening ∧ ∀ x ∈ d, ∀ y ∈ x.expr?, y.Laid opening.range.lo c

omit he hf in
theorem says_none (hc : c.Follows opening) : Says opening none c := ⟨hc, by simp⟩

theorem ends_loopCollection (key : Option String) (value : String) (hc : c.Follows opening) :
    Ends (loopCollection e key value) c (Says opening) := by
  refine arrives_atKeyword_bind fun b _ => ?_
  split
  · refine arrives_skip_bind ((he.behind hf (hc.later hc.inOrder.skip.toLater)).seq
      fun x c' ⟨_, hc', hx⟩ => arrives_pure ⟨hc', ?_⟩)
    simpa [Directive.expr?] using hx
  · exact arrives_peek_bind ((still_reportFirst _ _ _).seq fun _ => arrives_pure (says_none hc))

theorem ends_loopHeader (hc : c.Follows opening) : Ends (loopHeader e) c (Says opening) := by
  have hc₁ := hc.later hc.inOrder.skip.toLater
  refine arrives_read_bind ?_
  split
  · exact (still_reportFirst _ _ _).seq fun _ => arrives_pure (says_none hc₁)
  refine arrives_peekKind_bind ?_
  split
  · exact ends_loopCollection he hf _ _ hc₁
  have hc₂ := hc₁.later hc₁.inOrder.skip.toLater
  have hc₃ := hc₂.later hc₂.inOrder.skip.toLater
  refine arrives_skip_bind (arrives_read_bind ?_)
  split
  · exact (still_reportFirst _ _ _).seq fun _ => arrives_pure (says_none hc₃)
  · exact ends_loopCollection he hf _ _ hc₃

theorem ends_directiveContent (keyword : Token) (hc : c.Follows opening) :
    Ends (directiveContent e opening keyword) c (Says opening) := by
  have hplain (d : Directive) (hd : d.expr? = none) : Ends (pure (some d)) c (Says opening) :=
    arrives_pure ⟨hc, by simp [hd]⟩
  unfold directiveContent
  split
  · refine (he.behind hf hc).seq fun x c' ⟨_, hc', hx⟩ => arrives_pure ⟨hc', ?_⟩
    simpa [Directive.expr?] using hx
  · exact hplain _ rfl
  · exact hplain _ rfl
  · exact ends_loopHeader he hf hc
  · exact hplain _ rfl
  · exact (still_reportFirst _ _ _).seq fun _ => arrives_pure (says_none hc)

theorem ends_directive (hc : c.Follows opening) : Ends (directive e opening) c fun r c' =>
    c'.InOrder ∧ ∀ p ∈ r.1, Fits opening p c' := by
  have hskip := hc.inOrder.skip
  have hlost {c₁ : Cursor} (hc₁ : c₁.InOrder) : Ends (skipPast .sequenceEnd >>= fun _ =>
      pure ((none : Option TemplatePart), false)) c₁ fun r c' =>
        c'.InOrder ∧ ∀ p ∈ r.1, Fits opening p c' :=
    (passes_skipPast _).after hc₁ fun _ _ hl => arrives_pure ⟨hl.inOrder, by simp⟩
  refine arrives_peek_bind ?_
  split
  · exact (still_reportFirst _ _ _).seq fun _ => hlost hc.inOrder
  refine arrives_skip_bind ((ends_directiveContent he hf _ (hc.later hskip.toLater)).seq
    fun d c₁ ⟨hc₁, hd⟩ => ?_)
  split
  · exact hlost hc₁.inOrder
  · refine (ends_closeSequence _ _ hc₁.inOrder).seq fun strip c₂ hl =>
      ends_previousRange_bind (arrives_pure ⟨hl.inOrder, ?_⟩)
    have hc₂ := hc₁.later (hc₁.inOrder.skip.trans hl).toLater
    obtain ⟨hlo, hhi⟩ := hc₂.between
    rintro p hp
    obtain rfl := Option.mem_some.mp hp
    refine ⟨fun y hy => ?_, hlo, hhi⟩
    exact ((hd _ rfl y hy).shut hl.toLater hc₁.inOrder).toSpans.mono hlo.le hhi.ge

theorem ends_interpolation (start : SourceRange) (hc : c.Follows opening) :
    Ends (interpolation e start opening) c fun r c' => c'.InOrder ∧ Fits opening r.1 c' := by
  have hinner : Ends (withNewlines false do
      let x ← e
      return (x, ← closeSequence .extraInInterpolation start)) c fun r c' =>
        c'.Follows opening ∧ r.1.Shut opening.range.lo c' := by
    refine Ends.withNewlines ?_
    refine (he.behind hf (hc.enter false)).seq fun x c₁ ⟨_, hc₁, hx⟩ =>
      (ends_closeSequence _ _ hc₁.inOrder).seq fun strip c₂ hl => arrives_pure ?_
    have hl' := (hc₁.inOrder.skip.trans hl).toLater
    exact ⟨(hc₁.later hl').leave, (hx.shut hl.toLater hc₁.inOrder).leave⟩
  refine hinner.seq fun r c' ⟨hc', hx⟩ => ends_previousRange_bind (arrives_pure ⟨hc'.inOrder, ?_⟩)
  obtain ⟨hlo, hhi⟩ := hc'.between
  refine ⟨fun y hy => ?_, hlo, hhi⟩
  obtain rfl := Option.mem_some.mp hy
  exact hx.toSpans.mono hlo.le hhi.ge

end

variable {lo : Nat} {start range : SourceRange} {parts : List TemplatePart} {c' : Cursor}

/-- The parts of a template stand in a row up to the place. The first token of the template begins
where `start` does, and `range` ends before it does. -/
structure AtPart (lo : Nat) (start range : SourceRange) (parts : List TemplatePart) (c : Cursor) :
    Prop where
  inOrder : c.InOrder
  lo_le : lo ≤ start.lo
  start_le : start.lo ≤ c.peek.range.lo
  range_le : range.hi ≤ c.peek.range.hi
  row : Row lo (parts.map (·.range)) (max lo c.behind)
  holds : ∀ p ∈ parts, p.Holds

/-- The same at the end of a template, when a token is passed that is none of its parts. -/
structure PartsEnd (lo : Nat) (start range : SourceRange) (parts : List TemplatePart)
    (c : Cursor) : Prop where
  inOrder : c.InOrder
  begun : 0 < c.position
  lo_le : lo ≤ start.lo
  last : start.lo ≤ c.last
  ahead : start.lo ≤ c.ahead
  range_le : range.hi ≤ c.behind
  row : Row lo (parts.map (·.range)) c.behind
  holds : ∀ p ∈ parts, p.Holds

theorem AtPart.further (h : AtPart lo start range parts c) (hl : c.Further c') :
    AtPart lo start range parts c' := by
  have hbehind := hl.behind
  exact ⟨hl.inOrder, h.lo_le, Nat.le_trans h.start_le hl.peek_lo,
    Nat.le_trans h.range_le hl.peek_hi, h.row.mono (by omega), h.holds⟩

theorem AtPart.before {a : TemplateParts} (h : AtPart lo start range a.parts c) (t : Token) :
    AtPart lo start range (a.before t) c := by
  unfold TemplateParts.before
  split
  · refine ⟨h.inOrder, h.lo_le, h.start_le, h.range_le, ?_, TemplatePart.holds_trimLast h.holds⟩
    rw [TemplatePart.map_range_trimLast]
    exact h.row
  · exact h

/-- A part more, which begins with the next token. -/
theorem AtPart.concat {p : TemplatePart} (h : AtPart lo start range parts c)
    (hk : c.peek.kind ≠ .eof) (hl : c.advance.Further c') (hp : Fits c.peek p c') :
    AtPart lo start range (parts ++ [p]) c' := by
  obtain ⟨hholds, hplo, hphi⟩ := hp
  obtain ⟨hnext, hpassed⟩ := h.inOrder.next
  have hafter := h.further (h.inOrder.skip.trans hl)
  have := hnext.apart hk
  have := hnext.forward
  have := h.lo_le
  have := h.start_le
  have := hl.behind
  have := hpassed.behind_eq
  have hrow : Row lo (parts.map (·.range) ++ [p.range]) (max lo c'.behind) :=
    h.row.concat (by omega) (by omega) (by omega)
  refine ⟨hafter.inOrder, h.lo_le, hafter.start_le, hafter.range_le, ?_, ?_⟩
  · simpa using hrow
  · simpa [or_imp, forall_and] using ⟨h.holds, hholds⟩

theorem AtPart.stop (h : AtPart lo start range parts c) (hl : c.advance.Later c') :
    PartsEnd lo start range parts c' := by
  obtain ⟨hnext, hp⟩ := h.inOrder.next
  have hend := hp.toLater.trans hl
  have := h.lo_le
  have := h.start_le
  have := h.range_le
  have := hnext.behind
  have := hnext.forward
  have := hp.behind_eq
  have := hp.last_eq
  have := hp.peek_ahead
  have := hl.behind
  have := hl.last
  have := hl.ahead
  exact ⟨hl.inOrder, Nat.lt_of_lt_of_le hp.begun hl.position, h.lo_le, by omega, by omega,
    by omega, h.row.mono (by omega), h.holds⟩

section
variable (he : Lays e) (hf : Framed e)
include he hf

theorem ends_templateStep (closer : TokenKind) (a : TemplateParts)
    (h : AtPart lo start range a.parts c) :
    Ends (templateStep e closer start a) c fun r c' =>
      if r.2 then AtPart lo start range r.1.parts c' else PartsEnd lo start range r.1.parts c' := by
  obtain ⟨hnext, hp⟩ := h.inOrder.next
  have hskip := hp.inOrder.further (.refl _)
  refine arrives_read_bind ?_
  split
  · exact arrives_pure (h.stop hskip.toLater)
  have htext (x : String) (hk : c.peek.kind ≠ .eof) :
      AtPart lo start range (a.parts ++ [.text x c.peek.range]) c.advance :=
    h.concat hk hskip ⟨by simp [TemplatePart.Holds, TemplatePart.expr?], rfl, hp.behind_eq.symm⟩
  split
  · rename_i hk
    exact (still_chunk _).seq fun _ => arrives_pure (htext _ (by rw [hk]; decide))
  · rename_i hk
    exact (still_chunk _).seq fun _ => arrives_pure (htext _ (by rw [hk]; decide))
  · rename_i hk
    have hk : c.peek.kind ≠ .eof := by rw [hk]; decide
    refine (ends_interpolation he hf _ (h.inOrder.follows hk)).after hp.inOrder
      (framed.interpolation hf _) fun r c' hl ⟨_, hfits⟩ => arrives_pure ?_
    exact (h.before _).concat hk hl hfits
  · rename_i hk
    have hk : c.peek.kind ≠ .eof := by rw [hk]; decide
    have hdirective : Ends (withNewlines false (directive e c.peek)) c.advance
        fun r c' => ∀ p ∈ r.1, Fits c.peek p c' :=
      Ends.withNewlines ((ends_directive he hf ((h.inOrder.follows hk).enter false)).mono
        fun _ _ h => h.2)
    refine hdirective.after hp.inOrder (framed.withNewlines false (framed.directive hf))
      fun r c' hl hfits => arrives_pure ?_
    obtain ⟨part, strip⟩ := r
    cases part with
    | none => simpa using (h.before _).further (h.inOrder.skip.trans hl)
    | some p => exact (h.before _).concat hk hl (hfits p rfl)
  · refine (still_reportFirst _ _ _).seq fun _ => ?_
    dsimp only
    split
    · exact still_recover.seq fun _ => arrives_pure (h.stop hskip.toLater)
    · exact (framed.skipPast _).after hp.inOrder fun _ _ hl =>
        still_recover.seq fun _ => arrives_pure (h.stop hl.toLater)

end

theorem ends_templateExpr {stop : SourceRange}
    (h : ∀ x ∈ (Nesting.ofParts parts stop).1, x.Inside range.lo range.hi) :
    Ends (templateExpr parts stop range) c fun x c' => c' = c ∧ x.range = range ∧ x.Nests := by
  refine (still_tell _).seq fun _ => ?_
  split
  · rename_i y r inner hexprs
    refine arrives_pure ⟨rfl, rfl, Expr.nests_of_children fun x hx => ?_⟩
    obtain rfl := List.mem_singleton.mp hx
    have hmem : (Nesting.ofParts [.interpolation y r] stop).1 = [x] := hexprs
    exact h x (hmem ▸ List.mem_singleton_self x)
  · exact arrives_pure ⟨rfl, rfl, Expr.nests_of_children h⟩

section
variable (he : Lays e) (hf : Framed e)
include he hf

/-- A template that begins with `opening`, at the next token or behind it. -/
theorem ends_template {opening : SourceRange} (closer : TokenKind) (hc : c.InOrder)
    (hlo : opening.lo ≤ c.peek.range.lo) (hhi : opening.hi ≤ c.peek.range.hi) :
    Ends (template e opening closer) c fun x c' => x.Shut opening.lo c' := by
  refine arrives_peek_bind (Arrives.seq
    (P := fun a c' => PartsEnd opening.lo c.peek.range opening a.parts c') ?_ fun a c' h => ?_)
  · exact .iterate (I := fun a c' => AtPart opening.lo c.peek.range opening a.parts c')
      (advances_templateStep hf closer _) (fun a c h => ends_templateStep he hf closer a h)
      hc.whole.2 ⟨hc, hlo, Nat.le_refl _, hhi, Nat.le_max_left _ _, by simp⟩
  · have hlast := h.inOrder.last_le
    have := h.lo_le
    have := h.last
    have := h.ahead
    have := h.range_le
    obtain ⟨hplo, hphi⟩ := Cursor.previousRange_of_begun h.begun
    have hrlo := SourceRange.lo_between (r := opening) (s := c'.previousRange)
    have hrhi := SourceRange.hi_between (r := opening) (s := c'.previousRange)
    refine ends_previousRange_bind ((ends_templateExpr fun x hx => ?_).mono
      fun x c₁ ⟨hc₁, hrange, hnests⟩ => ?_)
    · refine (Nesting.inside_ofParts ?_ ?_ ?_ ?_ x hx : x.Inside opening.lo c'.behind).mono
        (by omega) (by omega)
      · split
        · have hend : c.peek.range.lo ≤ c'.behind := by omega
          exact ⟨hlo, Nat.le_refl _, hend⟩
        · exact h.row
      · split
        · simp [TemplatePart.Holds, TemplatePart.expr?]
        · exact h.holds
      · rw [SourceRange.lo_point_start]
        omega
      · rw [SourceRange.hi_point_start]
        omega
    · subst hc₁
      rw [← hrange] at hrlo hrhi
      exact ⟨⟨⟨hnests, by omega, by omega⟩, by omega⟩, by omega⟩

theorem encloses_quotedTemplate : Encloses opening (quotedTemplate e opening) := fun c hc => by
  obtain ⟨hnext, -⟩ := hc.inOrder.next
  exact ends_template he hf _ hc.inOrder hc.lo_le_peek (Nat.le_trans hc.behind hnext.behind)

end

end Parser

end HclSyntax
