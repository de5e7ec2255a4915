import HclSyntax.Proofs.Meaning.Said

namespace HclSyntax

/-- What an open directive holds, apart from places. -/
inductive Frame.Held where
  | conditional (condition : Tree) (ifTrue : List Tree) (ifFalse : Option (List Tree))
  | loop (keyVar : Option String) (valueVar : String) (collection : Tree) (body : List Tree)

def Frame.held : Frame → Frame.Held
  | .conditional c _ ifTrue ifFalse =>
    .conditional c.tree (ifTrue.map Expr.tree) (ifFalse.map (List.map Expr.tree))
  | .loop k v c _ body => .loop k v c.tree (body.map Expr.tree)

instance : Placed Frame := ⟨Frame.Held, Frame.held⟩

instance : Placed Nesting :=
  ⟨List Frame.Held × List Tree × List (ErrorCode × Severity × String),
    fun n => (Placed.said n.frames, Placed.said n.exprs, Placed.said n.diagnostics)⟩

namespace Likeness.Like

variable {x : Likeness}

section
variable {c c' : Expr} {r r' : SourceRange} {t t' : List Expr} {f f' : Option (List Expr)}
  {k : Option String} {v : String}

theorem conditionalFrame (hc : x.Like c c') (hr : x.Like r r') (ht : x.Like t t')
    (hf : x.Like f f') : x.Like (Frame.conditional c r t f) (.conditional c' r' t' f') := by
  refine ⟨?_, fun hx => by rw [hc.eq hx, hr.eq hx, ht.eq hx, hf.eq hx]⟩
  exact (Frame.Held.conditional.injEq ..).mpr ⟨hc.same, ht.same, hf.same⟩

theorem loopFrame (hc : x.Like c c') (hr : x.Like r r') (ht : x.Like t t') :
    x.Like (Frame.loop k v c r t) (.loop k v c' r' t') :=
  ⟨congrArg₂ (Frame.Held.loop k v) hc.same ht.same,
    fun hx => by rw [hc.eq hx, hr.eq hx, ht.eq hx]⟩

theorem of_conditionalFrame {o : Frame} (h : x.Like (Frame.conditional c r t f) o) :
    ∃ c' r' t' f', o = .conditional c' r' t' f' ∧ x.Like c c' ∧ x.Like r r' ∧ x.Like t t' ∧
      x.Like f f' := by
  have hs : (Frame.conditional c r t f).held = o.held := h.same
  cases o with
  | loop => cases hs
  | conditional c' r' t' f' =>
    obtain ⟨hc, ht, hf⟩ := Frame.Held.conditional.inj hs
    have he (hx : x.exact) := Frame.conditional.inj (h.eq hx)
    exact ⟨c', r', t', f', rfl, ⟨hc, fun hx => (he hx).1⟩, ⟨rfl, fun hx => (he hx).2.1⟩,
      ⟨ht, fun hx => (he hx).2.2.1⟩, ⟨hf, fun hx => (he hx).2.2.2⟩⟩

theorem of_loopFrame {o : Frame} (h : x.Like (Frame.loop k v c r t) o) :
    ∃ c' r' t', o = .loop k v c' r' t' ∧ x.Like c c' ∧ x.Like r r' ∧ x.Like t t' := by
  have hs : (Frame.loop k v c r t).held = o.held := h.same
  cases o with
  | conditional => cases hs
  | loop k' v' c' r' t' =>
    obtain ⟨rfl, rfl, hc, ht⟩ := Frame.Held.loop.inj hs
    have he (hx : x.exact) := Frame.loop.inj (h.eq hx)
    exact ⟨c', r', t', rfl, ⟨hc, fun hx => (he hx).2.2.1⟩, ⟨rfl, fun hx => (he hx).2.2.2.1⟩,
      ⟨ht, fun hx => (he hx).2.2.2.2⟩⟩

end

end Likeness.Like

namespace Nesting

variable {x : Likeness} {n n' : Nesting}

theorem like_mk {fs fs' : List Frame} {es es' : List Expr} {ds ds' : List Diagnostic}
    (hf : x.Like fs fs') (he : x.Like es es') (hd : x.Like ds ds') :
    x.Like (Nesting.mk fs es ds) ⟨fs', es', ds'⟩ :=
  ⟨congrArg₂ Prod.mk hf.same (congrArg₂ Prod.mk he.same hd.same),
    fun hx => by rw [hf.eq hx, he.eq hx, hd.eq hx]⟩

theorem like_frames (h : x.Like n n') : x.Like n.frames n'.frames :=
  h.map fun hs => congrArg (·.1) hs

theorem like_exprs (h : x.Like n n') : x.Like n.exprs n'.exprs :=
  h.map fun hs => congrArg (·.2.1) hs

theorem like_diagnostics (h : x.Like n n') : x.Like n.diagnostics n'.diagnostics :=
  h.map fun hs => congrArg (·.2.2) hs

theorem like_branch {es es' : List Expr} (h : x.Like es es') {r r' : SourceRange}
    (hr : x.Like r r') : x.Like (branch es r) (branch es' r') := by
  cases es with
  | nil =>
    rw [h.eq_nil]
    exact (Likeness.Like.refl _).literal hr
  | cons e es =>
    obtain ⟨e', es', rfl, he, hes⟩ := h.uncons
    exact h.template (.range fun hx => by rw [he.eq hx, hes.eq hx])

theorem like_push (h : x.Like n n') {e e' : Expr} (he : x.Like e e') :
    x.Like (n.push e) (n'.push e') := by
  obtain ⟨fs, es, ds⟩ := n
  obtain ⟨fs', es', ds'⟩ := n'
  have hf := like_frames h
  have hes := like_exprs h
  have hd := like_diagnostics h
  dsimp only at hf hes hd
  rcases fs with _ | ⟨⟨c, r, t, _ | f⟩ | ⟨k, v, c, r, b⟩, fs⟩
  · obtain rfl := hf.eq_nil
    exact like_mk hf (hes.append he.singleton) hd
  · obtain ⟨_, fs', rfl, hframe, hfs⟩ := hf.uncons
    obtain ⟨c', r', t', f', rfl, hc, hr, ht, hfalse⟩ := hframe.of_conditionalFrame
    obtain rfl := hfalse.eq_none
    exact like_mk ((hc.conditionalFrame hr (ht.append he.singleton) (.refl _)).cons hfs) hes hd
  · obtain ⟨_, fs', rfl, hframe, hfs⟩ := hf.uncons
    obtain ⟨c', r', t', f', rfl, hc, hr, ht, hfalse⟩ := hframe.of_conditionalFrame
    obtain ⟨g, rfl, hg⟩ := hfalse.of_some
    exact like_mk ((hc.conditionalFrame hr ht (hg.append he.singleton).some).cons hfs) hes hd
  · obtain ⟨_, fs', rfl, hframe, hfs⟩ := hf.uncons
    obtain ⟨c', r', b', rfl, hc, hr, hb⟩ := hframe.of_loopFrame
    exact like_mk ((hc.loopFrame hr (hb.append he.singleton)).cons hfs) hes hd

theorem like_fail (h : x.Like n n') {p p' : Problem} {r r' : SourceRange} (hr : x.Like r r')
    (hp : x.Like (p.toDiagnostic r none) (p'.toDiagnostic r' none)) :
    x.Like (n.fail p r) (n'.fail p' r') :=
  like_push (like_mk (like_frames h) (like_exprs h) ((like_diagnostics h).append hp.singleton))
    hr.placeholder

theorem like_closeConditional {c c' : Expr} {r r' s s' : SourceRange} {t t' : List Expr}
    {f f' : Option (List Expr)} (hc : x.Like c c') (hr : x.Like r r') (ht : x.Like t t')
    (hf : x.Like f f') (hs : x.Like s s') :
    x.Like (closeConditional c r t f s) (closeConditional c' r' t' f' s') := by
  have hgetD : x.Like (f.getD []) (f'.getD []) := by
    cases f with
    | none =>
      rw [hf.eq_none]
      exact .refl _
    | some f =>
      obtain ⟨g, rfl, hg⟩ := hf.of_some
      exact hg
  have htrue : x.Like (branch t r.endPoint) (branch t' r'.endPoint) :=
    like_branch ht (.range fun hx => by rw [hr.eq hx])
  have hfalse : x.Like (branch (f.getD []) (.point s.filename s.start))
      (branch (f'.getD []) (.point s'.filename s'.start)) :=
    like_branch hgetD (.range fun hx => by rw [hs.eq hx])
  exact ⟨(Tree.conditional.injEq ..).mpr ⟨hc.same, htrue.same, hfalse.same⟩,
    fun hx => by rw [hc.eq hx, hr.eq hx, ht.eq hx, hf.eq hx, hs.eq hx]⟩

theorem like_closeLoop {k : Option String} {v : String} {c c' : Expr} {r r' s s' : SourceRange}
    {b b' : List Expr} (hc : x.Like c c') (hr : x.Like r r') (hb : x.Like b b')
    (hs : x.Like s s') : x.Like (closeLoop k v c r b s) (closeLoop k v c' r' b' s') := by
  have hbranch : x.Like (branch b r.endPoint) (branch b' r'.endPoint) :=
    like_branch hb (.range fun hx => by rw [hr.eq hx])
  refine ⟨?_, fun hx => by rw [hc.eq hx, hr.eq hx, hb.eq hx, hs.eq hx]⟩
  exact congrArg₂ (fun c b => Tree.templateJoin (.comprehension k v c none b none false)) hc.same
    hbranch.same

theorem like_directive (h : x.Like n n') {d d' : Directive} (hd : x.Like d d')
    {r r' : SourceRange} (hr : x.Like r r') : x.Like (n.directive d r) (n'.directive d' r') := by
  obtain ⟨fs, es, ds⟩ := n
  obtain ⟨fs', es', ds'⟩ := n'
  have hf := like_frames h
  have hes := like_exprs h
  have hds := like_diagnostics h
  dsimp only at hf hes hds
  have hsame : d.sequence = d'.sequence := hd.same
  have hfail {fs fs' : List Frame} (hf : x.Like fs fs') {p p' : Problem}
      (hp : x.Like (p.toDiagnostic r none) (p'.toDiagnostic r' none)) :
      x.Like (fail ⟨fs, es, ds⟩ p r) (fail ⟨fs', es', ds'⟩ p' r') :=
    like_fail (like_mk hf hes hds) hr hp
  -- a problem that names the start of the directive that is given up
  have hat {q q' : SourceRange} (hq : x.Like q q') {p : SourceRange → Problem}
      (hp : ((p q).code, (p q).summary) = ((p q').code, (p q').summary)) :
      x.Like ((p q).toDiagnostic r none) ((p q').toDiagnostic r' none) :=
    ⟨congrArg (fun a : ErrorCode × String => (a.1, Severity.error, a.2)) hp,
      fun hx => by rw [hq.eq hx, hr.eq hx]⟩
  cases d with
  | ifStart c =>
    obtain ⟨c', rfl, hc⟩ : ∃ c', d' = .ifStart c' ∧ x.Like c c' := by
      cases d' <;> try cases hsame
      rename_i c'
      exact ⟨c', rfl, Sequence.ifStart.inj hsame, fun hx => Directive.ifStart.inj (hd.eq hx)⟩
    exact like_mk ((hc.conditionalFrame hr (.refl []) (.refl none)).cons hf) hes hds
  | forStart k v c =>
    obtain ⟨c', rfl, hc⟩ : ∃ c', d' = .forStart k v c' ∧ x.Like c c' := by
      cases d' <;> try cases hsame
      rename_i k' v' c'
      obtain ⟨rfl, rfl, hc⟩ := Sequence.forStart.inj hsame
      exact ⟨c', rfl, hc, fun hx => (Directive.forStart.inj (hd.eq hx)).2.2⟩
    exact like_mk ((hc.loopFrame hr (.refl [])).cons hf) hes hds
  | elseMark =>
    obtain rfl : d' = .elseMark := by cases d' <;> first | rfl | cases hsame
    rcases fs with _ | ⟨⟨c, q, t, _ | f⟩ | ⟨k, v, c, q, b⟩, fs⟩
    · obtain rfl := hf.eq_nil
      exact hfail (.refl _) (hr.toDiagnostic _ (.refl _))
    · obtain ⟨_, fs', rfl, hframe, hfs⟩ := hf.uncons
      obtain ⟨c', q', t', f', rfl, hc, hq, ht, hfalse⟩ := hframe.of_conditionalFrame
      obtain rfl := hfalse.eq_none
      exact like_mk ((hc.conditionalFrame hq ht (.refl (some []))).cons hfs) hes hds
    · obtain ⟨_, fs', rfl, hframe, hfs⟩ := hf.uncons
      obtain ⟨c', q', t', f', rfl, hc, hq, ht, hfalse⟩ := hframe.of_conditionalFrame
      obtain ⟨g, rfl, -⟩ := hfalse.of_some
      exact hfail hfs (hat hq (p := .secondElse) rfl)
    · obtain ⟨_, fs', rfl, hframe, hfs⟩ := hf.uncons
      obtain ⟨c', q', b', rfl, -, -, -⟩ := hframe.of_loopFrame
      exact hfail hfs (hr.toDiagnostic _ (.refl _))
  | endif =>
    obtain rfl : d' = .endif := by cases d' <;> first | rfl | cases hsame
    rcases fs with _ | ⟨⟨c, q, t, f⟩ | ⟨k, v, c, q, b⟩, fs⟩
    · obtain rfl := hf.eq_nil
      exact hfail (.refl _) (hr.toDiagnostic _ (.refl _))
    · obtain ⟨_, fs', rfl, hframe, hfs⟩ := hf.uncons
      obtain ⟨c', q', t', f', rfl, hc, hq, ht, hfalse⟩ := hframe.of_conditionalFrame
      exact like_push (like_mk hfs hes hds) (like_closeConditional hc hq ht hfalse hr)
    · obtain ⟨_, fs', rfl, hframe, hfs⟩ := hf.uncons
      obtain ⟨c', q', b', rfl, -, hq, -⟩ := hframe.of_loopFrame
      exact hfail hfs (hat hq (p := .endifInFor) rfl)
  | endfor =>
    obtain rfl : d' = .endfor := by cases d' <;> first | rfl | cases hsame
    rcases fs with _ | ⟨⟨c, q, t, f⟩ | ⟨k, v, c, q, b⟩, fs⟩
    · obtain rfl := hf.eq_nil
      exact hfail (.refl _) (hr.toDiagnostic _ (.refl _))
    · obtain ⟨_, fs', rfl, hframe, hfs⟩ := hf.uncons
      obtain ⟨c', q', t', f', rfl, -, hq, -, -⟩ := hframe.of_conditionalFrame
      exact hfail hfs (hat hq (p := .endforInIf) rfl)
    · obtain ⟨_, fs', rfl, hframe, hfs⟩ := hf.uncons
      obtain ⟨c', q', b', rfl, hc, hq, hb⟩ := hframe.of_loopFrame
      exact like_push (like_mk hfs hes hds) (like_closeLoop hc hq hb hr)

theorem like_part (h : x.Like n n') {p p' : TemplatePart} (hp : x.Like p p') :
    x.Like (n.part p) (n'.part p') := by
  have hsame : p.piece = p'.piece := hp.same
  cases p with
  | text v r =>
    cases p' <;> cases hsame
    exact like_push h (.literal (.refl _) (.range fun hx => (TemplatePart.text.inj (hp.eq hx)).2))
  | interpolation e r =>
    cases p' with
    | text => cases hsame
    | directive d => cases d <;> cases hsame
    | interpolation e' r' =>
      exact like_push h ⟨Sequence.interpolation.inj (Piece.sequence.inj hsame),
        fun hx => (TemplatePart.interpolation.inj (hp.eq hx)).1⟩
  | directive d r =>
    cases p' with
    | text => cases hsame
    | interpolation => cases d <;> cases hsame
    | directive d' r' =>
      exact like_directive h ⟨Piece.sequence.inj hsame,
        fun hx => (TemplatePart.directive.inj (hp.eq hx)).1⟩
        (.range fun hx => (TemplatePart.directive.inj (hp.eq hx)).2)

theorem like_finish (h : x.Like n n') {r r' : SourceRange} (hr : x.Like r r') :
    x.Like (n.finish r) (n'.finish r') := by
  have hf := like_frames h
  have hmissing (f f' : Frame) (h : x.Like f f') :
      x.Like ((missingEnd f).toDiagnostic r none) ((missingEnd f').toDiagnostic r' none) := by
    refine ⟨?_, fun hx => by rw [h.eq hx, hr.eq hx]⟩
    cases f with
    | conditional =>
      obtain ⟨_, _, _, _, rfl, -⟩ := h.of_conditionalFrame
      rfl
    | loop =>
      obtain ⟨_, _, _, rfl, -⟩ := h.of_loopFrame
      rfl
  unfold finish
  rw [← hf.isEmpty]
  split
  · exact h
  · exact like_mk (.refl []) ((like_exprs h).append hr.placeholder.singleton)
      ((like_diagnostics h).append (hf.mapAll hmissing))

theorem like_ofParts {ps ps' : List TemplatePart} (h : x.Like ps ps') {r r' : SourceRange}
    (hr : x.Like r r') : x.Like (ofParts ps r) (ofParts ps' r') := by
  have hfold (n n' : Nesting) (hn : x.Like n n') :
      x.Like (ps.foldl part n) (ps'.foldl part n') := by
    induction ps generalizing ps' n n' with
    | nil =>
      rw [h.eq_nil]
      exact hn
    | cons p ps ih =>
      obtain ⟨p', ps', rfl, hp, hps⟩ := h.uncons
      exact ih hps _ _ (like_part hn hp)
  have hn := like_finish (hfold ⟨[], [], []⟩ ⟨[], [], []⟩ (.refl _)) hr
  exact (like_exprs hn).pair (like_diagnostics hn)

end Nesting

end HclSyntax
