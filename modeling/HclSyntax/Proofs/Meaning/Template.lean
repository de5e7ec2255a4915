import HclSyntax.Proofs.Meaning.Collection
import HclSyntax.Proofs.Meaning.Nesting

namespace HclSyntax

namespace Likeness.Like

variable {x : Likeness}

theorem stripsBefore {t t' : Token} (h : x.Like t t') (hk : t.kind.isSpelled) :
    t.stripsBefore = t'.stripsBefore := by rw [Token.stripsBefore, Token.stripsBefore, h.bytes hk]

theorem stripsAfter {t t' : Token} (h : x.Like t t') (hk : t.kind.isSpelled) :
    t.stripsAfter = t'.stripsAfter := by rw [Token.stripsAfter, Token.stripsAfter, h.bytes hk]

theorem directivePart {d d' : Directive} (hd : x.Like d d') {r r' : SourceRange}
    (hr : x.Like r r') : x.Like (TemplatePart.directive d r) (.directive d' r') :=
  ⟨congrArg Piece.sequence hd.same, fun hx => by rw [hd.eq hx, hr.eq hx]⟩

theorem interpolationPart {e e' : Expr} (he : x.Like e e') {r r' : SourceRange}
    (hr : x.Like r r') : x.Like (TemplatePart.interpolation e r) (.interpolation e' r') :=
  ⟨congrArg (fun t => Piece.sequence (.interpolation t)) he.same,
    fun hx => by rw [he.eq hx, hr.eq hx]⟩

theorem textPart (s : String) {r r' : SourceRange} (hr : x.Like r r') :
    x.Like (TemplatePart.text s r) (.text s r') := ⟨rfl, fun hx => by rw [hr.eq hx]⟩

theorem ifStart {e e' : Expr} (h : x.Like e e') :
    x.Like (Directive.ifStart e) (.ifStart e') :=
  h.map fun hs => congrArg Sequence.ifStart hs

theorem forStart (k : Option String) (v : String) {e e' : Expr} (h : x.Like e e') :
    x.Like (Directive.forStart k v e) (.forStart k v e') :=
  h.map fun hs => congrArg (Sequence.forStart k v) hs

/-- The last part of like parts is text or is not. -/
theorem trimLast {ps ps' : List TemplatePart} (h : x.Like ps ps') :
    x.Like (TemplatePart.trimLast ps) (TemplatePart.trimLast ps') := by
  rcases List.eq_nil_or_concat ps with rfl | ⟨qs, p, rfl⟩
  · rw [h.eq_nil]
    exact refl _
  rw [List.concat_eq_append] at h ⊢
  obtain ⟨qs', p', rfl, hqs, hp⟩ := h.unconcat
  have hpiece : p.piece = p'.piece := hp.same
  unfold TemplatePart.trimLast
  rw [List.getLast?_concat, List.getLast?_concat, List.dropLast_concat, List.dropLast_concat]
  cases p with
  | text v r =>
    cases p' <;> cases hpiece
    exact hqs.append (textPart _ (.range fun hx => (TemplatePart.text.inj (hp.eq hx)).2)).singleton
  | interpolation | directive =>
    cases p' <;> first | exact h | cases hpiece

end Likeness.Like

namespace Parser

variable {x : Likeness}

theorem likewise_closeSequence (p : Problem) {r r' : SourceRange} (hr : x.Like r r') :
    Likewise x (closeSequence p r) (closeSequence p r') := by
  refine likewise_peek.bind fun close close' hclose => ?_
  rw [← hclose.kind]
  split
  · rename_i hk
    rw [hclose.stripsAfter (by rw [hk]; rfl)]
    exact likewise_skip.done (.refl _)
  · exact (likewise_reportFirst _ hclose.tokenRange
      (hr.between hclose.tokenRange).some).bind fun _ _ _ => (likewise_skipPast _).done (.refl _)

section
variable {e : Parser Expr} (he : Likewise x e e)
include he

theorem likewise_loopCollection (key : Option String) (value : String) :
    Likewise x (loopCollection e key value) (loopCollection e key value) := by
  refine likewise_atKeyword_bind fun b => ?_
  split
  · exact likewise_skip.bind fun _ _ _ => he.map fun _ _ h => (h.forStart key value).some
  · exact likewise_peek.bind fun _ _ ht =>
      (likewise_reportFirst _ ht.tokenRange (.refl _)).done (.refl _)

theorem likewise_loopHeader : Likewise x (loopHeader e) (loopHeader e) := by
  refine likewise_read.bind fun first first' hfirst => ?_
  rw [← hfirst.kind]
  split
  · exact (likewise_reportFirst _ hfirst.tokenRange (.refl _)).done (.refl _)
  rename_i hk
  rw [← hfirst.text (by rw [Decidable.of_not_not hk]; rfl)]
  refine likewise_peekKind_bind fun k => ?_
  split
  · exact likewise_loopCollection he _ _
  refine likewise_skip.bind fun _ _ _ => likewise_read.bind fun second second' hsecond => ?_
  rw [← hsecond.kind]
  split
  · exact (likewise_reportFirst _ hsecond.tokenRange (.refl _)).done (.refl _)
  · rename_i hk
    rw [← hsecond.text (by rw [Decidable.of_not_not hk]; rfl)]
    exact likewise_loopCollection he _ _

variable {opening opening' : Token} (ho : x.Like opening opening')
include ho

theorem likewise_directiveContent {keyword keyword' : Token} (hk : x.Like keyword keyword')
    (hi : keyword.kind = .identifier) :
    Likewise x (directiveContent e opening keyword) (directiveContent e opening' keyword') := by
  unfold directiveContent
  rw [← hk.text (by rw [hi]; rfl)]
  split
  · exact he.map fun _ _ h => h.ifStart.some
  · exact likewise_pure (.refl _)
  · exact likewise_pure (.refl _)
  · exact likewise_loopHeader he
  · exact likewise_pure (.refl _)
  · exact (likewise_reportFirst _ hk.tokenRange
      (ho.tokenRange.between hk.tokenRange).some).done (.refl _)

theorem likewise_directive : Likewise x (directive e opening) (directive e opening') := by
  refine likewise_peek.bind fun keyword keyword' hkey => ?_
  rw [← hkey.kind]
  split
  · exact (likewise_reportFirst _ hkey.tokenRange
      (ho.tokenRange.between hkey.tokenRange).some).bind fun _ _ _ =>
        (likewise_skipPast _).done (.refl _)
  rename_i hk
  have hk := Decidable.of_not_not hk
  refine likewise_skip.bind fun _ _ _ => ?_
  refine (likewise_directiveContent he ho hkey hk).bind fun d d' hd => ?_
  cases d with
  | none =>
    obtain rfl := hd.eq_none
    exact (likewise_skipPast _).done (.refl _)
  | some d =>
    obtain ⟨d', rfl, hpart⟩ := hd.of_some
    dsimp only
    rw [← hkey.text (by rw [hk]; rfl)]
    refine (likewise_closeSequence _ ho.tokenRange).bind fun strip strip' hs => ?_
    exact likewise_previousRange.map fun r r' hr =>
      (hpart.directivePart (ho.tokenRange.between hr)).some.pair hs

theorem likewise_interpolation {r r' : SourceRange} (hr : x.Like r r') :
    Likewise x (interpolation e r opening) (interpolation e r' opening') := by
  refine Likewise.flag_seq (Likewise.withNewlines (he.bind fun a a' ha => ?_) fun _ => rfl)
    fun a a' strip ha => ?_
  · exact (likewise_closeSequence _ hr).map fun _ _ h => ha.pair h
  · exact likewise_previousRange.map fun s s' hs =>
      (ha.interpolationPart (ho.tokenRange.between hs)).pair (.refl _)

end

instance : Placed TemplateParts := ⟨List Piece × Bool, fun a => (Placed.said a.parts, a.strip)⟩

theorem like_parts {ps ps' : List TemplatePart} (h : x.Like ps ps') (strip : Bool) :
    x.Like (⟨ps, strip⟩ : TemplateParts) ⟨ps', strip⟩ :=
  ⟨congrArg (·, strip) h.same, fun hx => by rw [h.eq hx]⟩

theorem like_before {ps ps' : List TemplatePart} (h : x.Like ps ps') (strip : Bool)
    {t t' : Token} (ht : x.Like t t') (hk : t.kind.isSpelled) :
    x.Like ((⟨ps, strip⟩ : TemplateParts).before t) ((⟨ps', strip⟩ : TemplateParts).before t') := by
  unfold TemplateParts.before
  rw [← ht.stripsBefore hk]
  split
  · exact h.trimLast
  · exact h

theorem likewise_templateStep {e : Parser Expr} (he : Likewise x e e) (closer : TokenKind)
    {r r' : SourceRange} (hr : x.Like r r') {a a' : TemplateParts} (ha : x.Like a a') :
    Likewise x (templateStep e closer r a) (templateStep e closer r' a') := by
  obtain ⟨ps, strip⟩ := a
  obtain ⟨ps', strip'⟩ := a'
  obtain rfl : strip = strip' := congrArg Prod.snd ha.same
  have hps : x.Like ps ps' :=
    ⟨congrArg Prod.fst ha.same, fun hx => (TemplateParts.mk.inj (ha.eq hx)).1⟩
  have hchunk {t t' : Token} (ht : x.Like t t') (hk : t.kind.isSpelled) :
      Likewise x
        (do
          let text ← chunk t
          let text := if strip then TemplatePart.trimStart text else text
          return ((⟨ps ++ [.text text t.range], false⟩ : TemplateParts), true))
        (do
          let text ← chunk t'
          let text := if strip then TemplatePart.trimStart text else text
          return ((⟨ps' ++ [.text text t'.range], false⟩ : TemplateParts), true)) := by
    refine (likewise_chunk ht hk).map fun s s' hs => ?_
    obtain rfl := hs.plain
    exact (like_parts (hps.append (ht.tokenRange.textPart _).singleton) false).pair (.refl _)
  refine likewise_read.bind fun next next' hnext => ?_
  rw [← hnext.kind]
  split
  · exact likewise_pure (ha.pair (.refl _))
  split
  · rename_i hk
    exact hchunk hnext (by rw [hk]; rfl)
  · rename_i hk
    exact hchunk hnext (by rw [hk]; rfl)
  · rename_i hk
    refine (likewise_interpolation he hnext hr).flag_seq fun part part' strip hpart => ?_
    exact likewise_pure ((like_parts ((like_before hps _ hnext (by rw [hk]; rfl)).append
      hpart.singleton) strip).pair (.refl _))
  · rename_i hk
    refine ((likewise_directive he hnext).withNewlines fun _ => rfl).flag_seq
      fun part part' strip hpart => ?_
    exact likewise_pure ((like_parts ((like_before hps _ hnext (by rw [hk]; rfl)).append
      hpart.toList) strip).pair (.refl _))
  · refine (likewise_reportFirst _ hnext.tokenRange
      (hr.between hnext.tokenRange).some).bind fun _ _ _ => ?_
    dsimp only
    split
    · exact likewise_recover.done (ha.pair (.refl _))
    · exact (likewise_skipPast _).bind fun _ _ _ => likewise_recover.done (ha.pair (.refl _))

theorem likewise_templateExpr {ps ps' : List TemplatePart} (hp : x.Like ps ps')
    {s s' r r' : SourceRange} (hs : x.Like s s') (hr : x.Like r r') :
    Likewise x (templateExpr ps s r) (templateExpr ps' s' r') := by
  have hparts := Nesting.like_ofParts hp hs
  unfold templateExpr
  generalize Nesting.ofParts ps s = made, Nesting.ofParts ps' s' = made' at hparts
  obtain ⟨es, ds⟩ := made
  obtain ⟨es', ds'⟩ := made'
  have hes : x.Like es es' := hparts.fst
  refine (likewise_tell hparts.snd).bind fun _ _ _ => ?_
  have htemplate : Likewise x (pure (Expr.template es r)) (pure (.template es' r')) :=
    likewise_pure (hes.template hr)
  rcases ps with _ | ⟨p, _ | ⟨q, ps⟩⟩
  · obtain rfl := hp.eq_nil
    exact htemplate
  · obtain ⟨p', _, rfl, hpart, hnil⟩ := hp.uncons
    obtain rfl := hnil.eq_nil
    have hpiece : p.piece = p'.piece := hpart.same
    cases p with
    | text =>
      cases p' <;> cases hpiece
      exact htemplate
    | directive d =>
      cases p' with
      | directive => exact htemplate
      | text | interpolation => cases d <;> cases hpiece
    | interpolation =>
      cases p' with
      | text => cases hpiece
      | directive d => cases d <;> cases hpiece
      | interpolation =>
        rcases es with _ | ⟨e, _ | ⟨e₂, es⟩⟩
        · obtain rfl := hes.eq_nil
          exact htemplate
        · obtain ⟨e', _, rfl, he, hnil⟩ := hes.uncons
          obtain rfl := hnil.eq_nil
          exact likewise_pure ⟨congrArg Tree.templateWrap he.same,
            fun hx => congrArg₂ Expr.templateWrap (he.eq hx) (hr.eq hx)⟩
        · obtain ⟨_, _, rfl, -, hes₂⟩ := hes.uncons
          obtain ⟨_, _, rfl, -, -⟩ := hes₂.uncons
          exact htemplate
  · obtain ⟨p', _, rfl, -, hps⟩ := hp.uncons
    obtain ⟨_, _, rfl, -, -⟩ := hps.uncons
    cases p <;> cases p' <;> exact htemplate

theorem likewise_template {e : Parser Expr} (he : Likewise x e e) (hf : Framed e)
    {r r' : SourceRange} (hr : x.Like r r') (closer : TokenKind) :
    Likewise x (template e r closer) (template e r' closer) := by
  refine likewise_peek.bind fun start start' hstart => ?_
  refine (Likewise.iterate (advances_templateStep hf closer _) (advances_templateStep hf closer _)
    (fun _ _ => likewise_templateStep he closer hstart.tokenRange) (.refl _)).bind fun a a' ha => ?_
  refine likewise_previousRange.bind fun close close' hclose => ?_
  have hps : x.Like a.parts a'.parts :=
    ⟨congrArg Prod.fst ha.same, fun hx => by rw [ha.eq hx]⟩
  refine likewise_templateExpr ?_ (.range fun hx => by rw [hclose.eq hx]) (hr.between hclose)
  rw [← hps.isEmpty]
  split
  · exact (Likeness.Like.textPart _ (.range fun hx => by rw [hstart.eq hx])).singleton
  · exact hps

theorem likewise_quotedTemplate {e : Parser Expr} (he : Likewise x e e) (hf : Framed e)
    {opening opening' : Token} (ho : x.Like opening opening') :
    Likewise x (quotedTemplate e opening) (quotedTemplate e opening') := by
  unfold quotedTemplate
  rw [← ho.kind]
  exact likewise_template he hf ho.tokenRange _

end Parser

end HclSyntax
