import HclSyntax.Proofs.Meaning.Chunk

namespace HclSyntax.Parser

variable {x : Likeness} {opening opening' : Token}

instance : Placed SplatSteps := ⟨List Step, fun a => Placed.said a.steps⟩

theorem likewise_splatStep {a a' : SplatSteps} (ha : x.Like a a') :
    Likewise x (splatStep a) (splatStep a') := by
  refine likewise_peekKind_bind fun k => ?_
  split
  · exact likewise_pure (ha.pair (.refl _))
  refine likewise_read.bind fun dot dot' hdot => likewise_peek.bind fun name name' hname => ?_
  have hrange := hdot.tokenRange.between hname.tokenRange
  have hmore {s s' : TraversalStep} (hs : x.Like s s') :
      x.Like ((⟨a.steps ++ [s], name.range⟩ : SplatSteps), true)
        (⟨a'.steps ++ [s'], name'.range⟩, true) := by
    have hsteps : x.Like a.steps a'.steps := ha.map id
    refine .pair ⟨(hsteps.append hs.singleton).same, fun hx => ?_⟩ (.refl _)
    rw [ha.eq hx, hs.eq hx, hname.eq hx]
  rw [← hname.kind]
  split
  · rename_i hk
    exact likewise_skip.done (hmore (.attr (hname.text (by rw [hk]; rfl)) hrange))
  · rename_i hk
    exact likewise_skip.bind fun _ _ _ => (likewise_numberValue hname hk).map fun v v' hv =>
      hmore (hv.indexStep hrange)
  · exact (likewise_reportFirst _ hname.tokenRange (.refl _)).bind fun _ _ _ =>
      likewise_recover.done (ha.pair (.refl _))

theorem like_splat {s s' each each' : Expr} (hs : x.Like s s') (he : x.Like each each')
    {i i' m m' r r' : SourceRange} (hi : x.Like i i') (hm : x.Like m m') (hr : x.Like r r') :
    x.Like (Expr.splat s each i m r) (.splat s' each' i' m' r') :=
  ⟨congrArg₂ Tree.splat hs.same he.same,
    fun hx => by rw [hs.eq hx, he.eq hx, hi.eq hx, hm.eq hx, hr.eq hx]⟩

theorem like_element {r r' : SourceRange} (hr : x.Like r r') :
    x.Like (Expr.element r) (.element r') := ⟨rfl, fun hx => by rw [hr.eq hx]⟩

theorem likewise_attributeSplat {source source' : Expr} (hs : x.Like source source')
    {dot dot' star star' : Token} (hd : x.Like dot dot') (ht : x.Like star star') :
    Likewise x (attributeSplat source dot star) (attributeSplat source' dot' star') := by
  have hstart : x.Like (⟨[], star.range⟩ : SplatSteps) ⟨[], star'.range⟩ :=
    ⟨rfl, fun hx => by rw [ht.eq hx]⟩
  refine (Likewise.iterate advances_splatStep advances_splatStep (fun _ _ => likewise_splatStep)
    hstart).map fun a a' ha => ?_
  have hmark := hd.tokenRange.between ht.tokenRange
  have hsteps : x.Like a.steps a'.steps := ha.map id
  have hlast : x.Like a.last a'.last := .range fun hx => by rw [ha.eq hx]
  refine like_splat hs ?_ hmark hmark (hs.exprRange.between hlast)
  rw [← hsteps.isEmpty]
  split
  · exact like_element hmark
  · refine ⟨congrArg (Tree.relative .element) hsteps.same, fun hx => ?_⟩
    rw [hmark.eq hx, ha.eq hx]

theorem likewise_fullSplat {suffixes : Expr → Parser Expr}
    (hf : ∀ e e', x.Like e e' → Likewise x (suffixes e) (suffixes e')) {source source' : Expr}
    (hs : x.Like source source') (ho : x.Like opening opening') :
    Likewise x (fullSplat suffixes source opening) (fullSplat suffixes source' opening') := by
  have hrest {r r' : SourceRange} (hr : x.Like r r') : Likewise x
      (do
        let marker := SourceRange.between opening.range r
        let each ← suffixes (.element marker)
        return Expr.splat source each marker marker (.between source.range each.range))
      (do
        let marker := SourceRange.between opening'.range r'
        let each ← suffixes (.element marker)
        return Expr.splat source' each marker marker (.between source'.range each.range)) := by
    have hmark := ho.tokenRange.between hr
    refine (hf _ _ (like_element hmark)).map fun each each' heach => ?_
    exact like_splat hs heach hmark hmark (hs.exprRange.between heach.exprRange)
  refine likewise_read.bind fun close close' hclose => likewise_recovering_bind fun b => ?_
  rw [← hclose.kind]
  split
  · exact (likewise_report _ hclose.tokenRange (.refl _)).bind fun _ _ _ =>
      (likewise_skipPast _).bind fun _ _ _ => likewise_previousRange.bind fun _ _ => hrest
  · exact likewise_previousRange.bind fun _ _ => hrest

section
variable {e : Parser Expr} (he : Likewise x e e)
include he

theorem likewise_indexKey : Likewise x (indexKey e) (indexKey e) := by
  refine Likewise.withNewlines (he.track_seq fun key key' lost hkey => ?_) fun _ => rfl
  dsimp only
  split
  · exact (likewise_skipPast _).done hkey
  refine likewise_read.bind fun close close' hclose => likewise_recovering_bind fun b => ?_
  rw [← hclose.kind]
  split
  · exact (likewise_report _ hclose.tokenRange (.refl _)).bind fun _ _ _ =>
      (likewise_skipPast _).done hkey
  · exact likewise_pure hkey

theorem likewise_index {c c' : Expr} (hc : x.Like c c') (ho : x.Like opening opening') :
    Likewise x (index e c opening) (index e c' opening') := by
  refine (likewise_indexKey he).bind fun key key' hkey => ?_
  refine likewise_previousRange.bind fun r r' hr => ?_
  have hrange := ho.tokenRange.between hr
  dsimp only
  rw [← hkey.staticKey?]
  split
  · exact likewise_pure (hc.step (.indexStep (.refl _) hrange))
  · exact likewise_pure ⟨congrArg₂ Tree.index hc.same hkey.same,
      fun hx => by rw [hc.eq hx, hkey.eq hx, ho.eq hx, hr.eq hx]⟩

omit he in
theorem likewise_dotSuffix {a a' : Expr} (ha : x.Like a a') :
    Likewise x (dotSuffix a) (dotSuffix a') := by
  refine likewise_read.bind fun dot dot' hdot => likewise_peek.bind fun next next' hnext => ?_
  rw [← hnext.kind]
  split
  · rename_i hk
    exact likewise_skip.done (ha.step
      (.attr (hnext.text (by rw [hk]; rfl)) (hdot.tokenRange.between hnext.tokenRange)))
  · exact likewise_skip.bind fun _ _ _ => likewise_attributeSplat ha hdot hnext
  · exact (likewise_report _ hnext.tokenRange (.refl _)).bind fun _ _ _ => likewise_recover.done ha

theorem likewise_suffixStep {suffixes : Expr → Parser Expr}
    (hf : ∀ e e', x.Like e e' → Likewise x (suffixes e) (suffixes e')) {a a' : Expr}
    (ha : x.Like a a') : Likewise x (suffixStep e suffixes a) (suffixStep e suffixes a') := by
  refine likewise_peekKind_bind fun k => ?_
  split
  · exact (likewise_dotSuffix ha).map fun _ _ h => h.pair (.refl _)
  · refine Likewise.map (likewise_read.bind fun opening opening' ho => ?_)
      fun _ _ h => h.pair (.refl _)
    refine likewise_peekKind_bind fun k => ?_
    split
    · exact likewise_skip.bind fun _ _ _ => likewise_fullSplat hf ha ho
    · exact likewise_index he ha ho
  · exact likewise_pure (ha.pair (.refl _))

end

theorem likewise_constantIndex {root root' : Token} (hr : x.Like root root')
    (ho : x.Like opening opening') :
    Likewise x (constantIndex root opening) (constantIndex root' opening') := by
  have hkey : Likewise x (constantKey root) (constantKey root') := by
    refine likewise_peek.bind fun t t' ht => ?_
    rw [← ht.kind]
    split
    · rename_i hk
      exact likewise_skip.bind fun _ _ _ => (likewise_numberValue ht hk).map fun _ _ hv => hv.some
    · exact likewise_skip.bind fun _ _ _ => (likewise_quotedString ht).map fun s s' hs =>
        Likeness.Like.some ⟨congrArg Value.string hs.fst.plain, fun hx => by rw [hs.eq hx]⟩
    · exact (likewise_report _ ht.tokenRange
        (hr.tokenRange.between ht.tokenRange).some).done (.refl _)
  refine hkey.bind fun key key' hk => ?_
  obtain rfl := hk.plain
  split
  · exact likewise_pure (.refl _)
  refine likewise_read.bind fun close close' hclose => ?_
  have hrange := ho.tokenRange.between hclose.tokenRange
  have hstep (key : Value) :
      x.Like (some (TraversalStep.index key (opening.range.between close.range)))
        (some (.index key (opening'.range.between close'.range))) :=
    (Likeness.Like.indexStep (.refl key) hrange).some
  dsimp only
  rw [← hclose.kind]
  split
  · exact (likewise_report _ hclose.tokenRange hrange.some).done (hstep _)
  · exact likewise_pure (hstep _)

theorem likewise_traversalStep {root root' : Token} (hr : x.Like root root')
    {steps steps' : Traversal} (hs : x.Like steps steps') :
    Likewise x (traversalStep root steps) (traversalStep root' steps') := by
  refine likewise_peek.bind fun next next' hnext => ?_
  rw [← hnext.kind]
  split
  · exact likewise_pure (hs.pair (.refl _))
  · refine likewise_skip.bind fun _ _ _ => likewise_read.bind fun name name' hname => ?_
    have hrange := hnext.tokenRange.between hname.tokenRange
    rw [← hname.kind]
    split
    · rename_i hk
      exact likewise_pure ((hs.append
        (Likeness.Like.attr (hname.text (by rw [hk]; rfl)) hrange).singleton).pair (.refl _))
    · exact (likewise_report _ hname.tokenRange
        (hr.tokenRange.between hname.tokenRange).some).done (hs.pair (.refl _))
  · refine likewise_skip.bind fun _ _ _ => ?_
    exact (likewise_constantIndex hr hnext).observe_seq fun step step' reported hstep =>
      likewise_pure ((hs.append hstep.toList).pair (.refl _))
  · exact (likewise_report _ hnext.tokenRange
      (hr.tokenRange.between hnext.tokenRange).some).done (hs.pair (.refl _))

theorem likewise_traversal : Likewise x traversal traversal := by
  refine likewise_read.bind fun root root' hr => ?_
  rw [← hr.kind]
  split
  · exact (likewise_report _ hr.tokenRange (.refl _)).done (.refl _)
  rename_i hk
  have htext := hr.text (by rw [Decidable.of_not_not hk]; rfl)
  have hroot : x.Like (TraversalStep.root root.text root.range) (.root root'.text root'.range) :=
    ⟨congrArg Step.root htext, fun hx => by rw [hr.eq hx]⟩
  exact .iterate (advances_traversalStep root) (advances_traversalStep root')
    (fun _ _ => likewise_traversalStep hr) hroot.singleton

end HclSyntax.Parser
