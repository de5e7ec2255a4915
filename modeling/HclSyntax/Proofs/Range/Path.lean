import HclSyntax.Proofs.Range.Run

namespace HclSyntax

namespace Expr

variable {e : Expr} {c : Cursor} {lo : Nat}

/-- A step whose tokens are passed. -/
theorem Shut.step {s : TraversalStep} (h : e.Shut lo c) (hlo : e.range.lo ≤ s.range.lo)
    (hhi : s.range.hi ≤ c.behind) : (e.step s).Shut lo c := by
  obtain ⟨⟨⟨hn, hl, hh⟩, hf⟩, ha⟩ := h
  have hslo : (e.step s).range.lo = min e.range.lo s.range.lo := by
    rw [range_step, SourceRange.lo_between]
  have hshi : (e.step s).range.hi = max e.range.hi s.range.hi := by
    rw [range_step, SourceRange.hi_between]
  exact ⟨⟨⟨hn.step s, by omega, by omega⟩, by omega⟩, by omega⟩

/-- A node that begins with an expression and goes on up to where `r` ends. -/
theorem Shut.extend {x : Expr} {r : SourceRange} (hx : x.Shut lo c)
    (hr : e.range = .between x.range r) (hlo : x.range.lo ≤ r.lo) (hhi : r.hi ≤ c.behind)
    (hc : ∀ y ∈ e.children, y = x ∨ y.Inside x.range.lo r.hi) : e.Shut lo c := by
  obtain ⟨⟨⟨hn, hl, hh⟩, hf⟩, ha⟩ := hx
  have helo : e.range.lo = min x.range.lo r.lo := by rw [hr, SourceRange.lo_between]
  have hehi : e.range.hi = max x.range.hi r.hi := by rw [hr, SourceRange.hi_between]
  refine ⟨⟨⟨nests_of_children fun y hy => ?_, by omega, by omega⟩, by omega⟩, by omega⟩
  rcases hc y hy with rfl | hy
  · exact ⟨hn, by omega, by omega⟩
  · exact hy.mono (by omega) (by omega)

end Expr

namespace Parser

variable {c c' : Cursor} {lo : Nat} {source : Expr} {dot star opening : Token}

/-- The place is behind the steps of an attribute splat, which begins with `dot`. -/
structure AtSplat (dot : Token) (marker : SourceRange) (a : SplatSteps) (c : Cursor) : Prop where
  follows : c.Follows dot
  marker_from : dot.range.lo ≤ marker.lo
  from_le : dot.range.lo ≤ a.last.lo
  marker_le : marker.hi ≤ a.last.hi
  le_to : a.last.hi ≤ c.behind

variable {marker : SourceRange} {a : SplatSteps}

/-- A step more, up to the token that is next. -/
theorem AtSplat.next {steps : Traversal} (h : AtSplat dot marker a c) (hl : c.Further c') :
    AtSplat dot marker ⟨steps, c'.peek.range⟩ c'.advance := by
  obtain ⟨hnext, hp⟩ := hl.inOrder.next
  refine ⟨h.follows.later (hl.toLater.trans hp.toLater), h.marker_from, ?_, ?_, hp.behind_eq.ge⟩
  · exact Nat.le_trans h.follows.last (Nat.le_trans hl.last hnext.last)
  · exact Nat.le_trans h.marker_le (Nat.le_trans h.le_to (Nat.le_trans hl.behind hnext.behind))

theorem ends_splatStep (h : AtSplat dot marker a c) :
    Ends (splatStep a) c fun r c' => AtSplat dot marker r.1 c' := by
  have hskip := h.follows.inOrder.skip
  refine arrives_peekKind_bind ?_
  split
  · exact arrives_pure h
  refine arrives_read_bind (arrives_peek_bind ?_)
  dsimp only
  split
  · exact arrives_skip_bind (arrives_pure (h.next hskip))
  · exact arrives_skip_bind ((still_numberValue _).seq fun _ => arrives_pure (h.next hskip))
  · exact (still_reportFirst _ _ _).seq fun _ => still_recover.seq fun _ =>
      arrives_pure ⟨h.follows.later hskip.toLater, h.marker_from, h.from_le, h.marker_le,
        Nat.le_trans h.le_to hskip.behind⟩

/-- What is taken of every element lies between the dot and the last step. -/
theorem AtSplat.each (h : AtSplat dot marker a c) :
    (if a.steps.isEmpty then Expr.element marker
      else .relativeTraversal (.element marker) a.steps (.between marker a.last)).Inside
        dot.range.lo a.last.hi := by
  have := h.from_le
  have := h.marker_from
  have := h.marker_le
  have helement : (Expr.element marker).Nests := Expr.nests_of_children (by simp [Expr.children])
  split
  · exact ⟨helement, h.marker_from, h.marker_le⟩
  · let e : Expr := .relativeTraversal (.element marker) a.steps (.between marker a.last)
    have hlo : e.range.lo = min marker.lo a.last.lo := SourceRange.lo_between
    have hhi : e.range.hi = max marker.hi a.last.hi := SourceRange.hi_between
    refine ⟨Expr.nests_of_children fun x hx => ?_, ?_, ?_⟩
    · obtain rfl := List.mem_singleton.mp hx
      change (Expr.element marker).Inside e.range.lo e.range.hi
      exact ⟨helement, by change e.range.lo ≤ marker.lo; omega, by change marker.hi ≤ _; omega⟩
    · change _ ≤ e.range.lo
      omega
    · change e.range.hi ≤ _
      omega

theorem ends_attributeSplat (hs : source.Shut lo c) (hd : source.range.lo ≤ dot.range.lo)
    (h : AtSplat dot (.between dot.range star.range) ⟨[], star.range⟩ c) :
    Ends (attributeSplat source dot star) c fun e c' => e.Laid lo c' := by
  have hsteps : Ends (iterate splatStep ⟨[], star.range⟩) c fun a c' =>
      AtSplat dot (.between dot.range star.range) a c' :=
    .iterate (I := AtSplat dot (.between dot.range star.range)) advances_splatStep
      (fun a c h => (ends_splatStep h).mono fun r c' h => by split <;> exact h)
      h.follows.inOrder.whole.2 h
  refine hsteps.after h.follows.inOrder (framed.iterate framed.splatStep _)
    fun a c' hl ha => ?_
  refine arrives_pure (((hs.later hl.toLater).extend rfl (Nat.le_trans hd ha.from_le) ha.le_to
    fun x hx => ?_).laid hl.inOrder)
  rcases List.mem_pair.mp hx with rfl | rfl
  · exact .inl rfl
  · exact .inr (ha.each.mono hd (Nat.le_refl _))

theorem ends_dotSuffix (h : source.Laid lo c) (hc : c.InOrder) (hk : c.peek.kind = .dot) :
    Ends (dotSuffix source) c fun e c' => e.Laid lo c' := by
  obtain ⟨hnext, hp⟩ := hc.next
  have hdot : c.advance.Follows c.peek := hc.follows (by rw [hk]; decide)
  have hs := h.shut hp.inOrder.refl hc
  obtain ⟨hnext₁, hp₁⟩ := hp.inOrder.next
  have hs₁ := hs.later hp₁.toLater
  have hstar : c.peek.range.lo ≤ c.advance.peek.range.lo := hp.last_eq ▸ hnext₁.last
  have hend : c.peek.range.hi ≤ c.advance.peek.range.hi := hp.behind_eq ▸ hnext₁.behind
  refine arrives_read_bind (arrives_peek_bind ?_)
  split
  · refine arrives_skip_bind (arrives_pure ((hs₁.step ?_ ?_).laid hp₁.inOrder))
    · change _ ≤ (SourceRange.between c.peek.range c.advance.peek.range).lo
      rw [SourceRange.lo_between]
      exact Nat.le_min.mpr ⟨h.lo_le, Nat.le_trans h.lo_le hstar⟩
    · change (SourceRange.between c.peek.range c.advance.peek.range).hi ≤ _
      rw [SourceRange.hi_between, hp₁.behind_eq]
      exact Nat.max_le.mpr ⟨hend, Nat.le_refl _⟩
  · refine arrives_skip_bind (ends_attributeSplat hs₁ h.lo_le
      ⟨hdot.later hp₁.toLater, ?_, hstar, ?_, hp₁.behind_eq.ge⟩)
    · rw [SourceRange.lo_between]
      omega
    · rw [SourceRange.hi_between]
      exact Nat.max_le.mpr ⟨hend, Nat.le_refl _⟩
  · exact (still_report _ _ _).seq fun _ => still_recover.seq fun _ =>
      arrives_pure (hs.laid hp.inOrder)

/-- A parser that may make an expression longer. -/
def Extends (p : Expr → Parser Expr) : Prop :=
  ∀ ⦃c lo x⦄, c.InOrder → x.Laid lo c → Ends (p x) c fun y c' => y.Laid lo c'

theorem ends_fullSplat {suffixes : Expr → Parser Expr} (hx : Extends suffixes)
    (hf : ∀ x, Framed (suffixes x)) (hs : source.Shut lo c)
    (ho : source.range.lo ≤ opening.range.lo) (hc : c.Follows opening) :
    Ends (fullSplat suffixes source opening) c fun e c' => e.Laid lo c' := by
  have hrest {c₁ : Cursor} (hl : c.Further c₁) : Ends (do
      let marker := SourceRange.between opening.range (← previousRange)
      let each ← suffixes (.element marker)
      return Expr.splat source each marker marker (.between source.range each.range)) c₁
        fun e c' => e.Laid lo c' := by
    have hc₁ := hc.later hl.toLater
    have hmarker : (Expr.element (.between opening.range c₁.previousRange)).Shut
        opening.range.lo c₁ := .of_follows hc₁ rfl (by simp [Expr.children])
    refine ends_previousRange_bind ((hx hc₁.inOrder (hmarker.laid hc₁.inOrder)).after hc₁.inOrder
      (hf _) fun each c₂ hl₂ heach => ?_)
    have hlo : lo ≤ opening.range.lo := Nat.le_trans hs.from_le ho
    exact arrives_pure (.between (hs.later (hl.trans hl₂).toLater) (heach.mono hlo) hl₂.inOrder rfl
      (fun h => (Expr.known_splat.mp h).2) fun z hz => List.mem_pair.mp hz)
  have hskip := hc.inOrder.skip
  refine arrives_read_bind (still_recovering.seq fun b => ?_)
  dsimp only
  split
  · exact (still_report _ _ _).seq fun _ => (passes_skipPast _).after hskip.inOrder
      fun _ _ hl => hrest (hskip.trans (hskip.inOrder.skip.trans hl))
  · exact hrest hskip

section
variable {expression : Parser Expr} (he : Lays expression) (hf : Framed expression)
include he hf

theorem ends_indexKey (hc : c.Follows opening) : Ends (indexKey expression) c fun key c' =>
    c.Later c' ∧ key.Shut opening.range.lo c' := by
  refine Ends.withNewlines (Arrives.mono (P := fun key c' => (c.enter false).Later c' ∧
    key.Shut opening.range.lo c') ?_ fun _ _ h => ⟨h.1.leave, h.2.leave⟩)
  refine (he.behind hf (hc.enter false)).track_seq fun key lost c₁ ⟨hl, hc₁, hkey⟩ => ?_
  have hdone {c₂ : Cursor} (h : c₁.advance.Further c₂) :
      Ends (pure key) c₂ fun key c' => (c.enter false).Later c' ∧ key.Shut opening.range.lo c' :=
    arrives_pure ⟨(hl.trans (hc₁.inOrder.skip.trans h)).toLater, hkey.shut h.toLater hc₁.inOrder⟩
  have hskip := hc₁.inOrder.skip.inOrder.further (.refl _)
  dsimp only
  split
  · exact (passes_skipPast _).after hc₁.inOrder fun _ _ h => hdone h
  refine arrives_read_bind (still_recovering.seq fun b => ?_)
  split
  · exact (still_report _ _ _).seq fun _ => (passes_skipPast _).after hskip.inOrder
      fun _ _ h => hdone (hskip.trans (hskip.inOrder.skip.trans h))
  · exact hdone hskip

theorem ends_index {collection : Expr} (hs : collection.Shut lo c)
    (ho : collection.range.lo ≤ opening.range.lo) (hc : c.Follows opening) :
    Ends (index expression collection opening) c fun e c' => e.Laid lo c' := by
  refine (ends_indexKey he hf hc).seq fun key c' ⟨hl, hkey⟩ => ends_previousRange_bind ?_
  have hc' := hc.later hl
  have hs' := hs.later hl
  obtain ⟨hlo, hhi⟩ := hc'.between
  dsimp only
  split
  · exact arrives_pure ((hs'.step (s := .index _ _) (Nat.le_trans ho hlo.ge) hhi.le).laid
      hl.inOrder)
  · refine arrives_pure
      ((hs'.extend rfl (Nat.le_trans ho hlo.ge) hhi.le fun x hx => ?_).laid hl.inOrder)
    rcases List.mem_pair.mp hx with rfl | rfl
    · exact .inl rfl
    · exact .inr (hkey.toInside.mono ho hhi.ge)

theorem ends_suffixStep {suffixes : Expr → Parser Expr} (hx : Extends suffixes)
    (hfs : ∀ x, Framed (suffixes x)) (hs : source.Laid lo c) (hc : c.InOrder) :
    Ends (suffixStep expression suffixes source) c fun r c' => r.1.Laid lo c' := by
  refine arrives_peekKind_bind ?_
  split
  · rename_i hk
    exact (ends_dotSuffix hs hc hk).seq fun _ _ h => arrives_pure h
  · rename_i hk
    have hopen : c.advance.Follows c.peek := hc.follows (by rw [hk]; decide)
    have hskip := hopen.inOrder.skip
    have hshut := hs.shut hopen.inOrder.refl hc
    refine Arrives.seq (P := fun x c' => x.Laid lo c') ?_ fun _ _ h => arrives_pure h
    refine arrives_read_bind (arrives_peekKind_bind ?_)
    split
    · exact arrives_skip_bind (ends_fullSplat hx hfs (hshut.later hskip.toLater) hs.lo_le
        (hopen.later hskip.toLater))
    · exact ends_index he hf hshut hs.lo_le hopen
  · exact arrives_pure hs

end

end Parser

end HclSyntax
