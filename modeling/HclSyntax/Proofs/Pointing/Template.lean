import HclSyntax.Proofs.Parts
import HclSyntax.Proofs.Pointing.Run

namespace HclSyntax

variable {source : SourceRange}

/-- A directive in the source. Other parts of a template are never reported. -/
def TemplatePart.PartOf (source : SourceRange) : TemplatePart → Prop
  | .directive _ r => source.PartOf r
  | .text .. | .interpolation .. => True

namespace Nesting

theorem points_directive {n : Nesting} {r : SourceRange}
    (h : ∀ x ∈ n.diagnostics, x.PointsInto source) (d : Directive) (hr : source.PartOf r) :
    ∀ x ∈ (n.directive d r).diagnostics, x.PointsInto source := by
  have hfail (n : Nesting) (h : ∀ x ∈ n.diagnostics, x.PointsInto source) (p : Problem) :
      ∀ x ∈ (n.fail p r).diagnostics, x.PointsInto source := by
    rw [fail, diagnostics_push, List.forall_mem_append, List.forall_mem_singleton]
    exact ⟨h, hr.report p⟩
  unfold directive
  split
  case h_1 | h_2 | h_3 => exact h
  case h_7 | h_10 => rwa [diagnostics_push]
  all_goals
    apply hfail
    exact h

theorem points_ofParts {parts : List TemplatePart} {stop : SourceRange}
    (h : ∀ p ∈ parts, p.PartOf source) (hs : source.PartOf stop) :
    ∀ x ∈ (ofParts parts stop).2, x.PointsInto source := by
  have hfold (n : Nesting) (hn : ∀ x ∈ n.diagnostics, x.PointsInto source) :
      ∀ x ∈ (parts.foldl part n).diagnostics, x.PointsInto source := by
    induction parts generalizing n with
    | nil => exact hn
    | cons p parts ih =>
      obtain ⟨hp, hparts⟩ := List.forall_mem_cons.mp h
      refine ih hparts _ ?_
      cases p with
      | directive d r => exact points_directive hn d hp
      | text value r => rwa [part, diagnostics_push]
      | interpolation e r => rwa [part, diagnostics_push]
  have hparts := hfold ⟨[], [], []⟩ (by simp)
  unfold ofParts finish
  split
  · exact hparts
  · refine List.forall_mem_append.mpr ⟨hparts, fun x hx => ?_⟩
    obtain ⟨f, -, rfl⟩ := List.mem_map.mp hx
    exact hs.report _

end Nesting

namespace Parser

variable {opening : Token} {e : Parser Expr}

theorem points_closeSequence {start : SourceRange} (p : Problem) (hs : source.PartOf start) :
    Points source (closeSequence p start) := by
  refine marks_peek_bind fun close ht => ?_
  split
  · exact points_skip.map _
  · exact (points_reportFirst (ht.range.reportAfter hs p)).bind fun _ =>
      (points_skipPast _).map _

section
variable (hp : Points source e)
include hp

theorem points_loopCollection (key : Option String) (value : String) :
    Points source (loopCollection e key value) := by
  refine marks_atKeyword_bind fun b => ?_
  split
  · exact points_skip.bind fun _ => hp.map _
  · exact marks_peek_bind fun _ ht => (points_reportFirst (ht.range.report _)).map _

theorem points_loopHeader : Points source (loopHeader e) := by
  have hlost {t : Token} (ht : t.PartOf source) (m : Problem) : Points source
      (reportFirst m t.range none >>= fun _ => pure (none : Option Directive)) :=
    (points_reportFirst (ht.range.report m)).map _
  refine marks_read_bind fun first hfirst => ?_
  split
  · exact hlost hfirst _
  refine marks_peekKind_bind fun k => ?_
  split
  · exact points_loopCollection hp _ _
  refine points_skip.bind fun _ => marks_read_bind fun second hsecond => ?_
  split
  · exact hlost hsecond _
  · exact points_loopCollection hp _ _

theorem marks_interpolation {start : SourceRange} (hs : source.PartOf start) :
    Marks source (interpolation e start opening) fun r => r.1.PartOf source := by
  have hinner : Points source (withNewlines false do
      let x ← e
      return (x, ← closeSequence .extraInInterpolation start)) :=
    Marks.withNewlines (hp.bind fun _ => (points_closeSequence _ hs).map _) _
  exact hinner.bind fun _ => marks_previousRange.bind fun _ _ => marks_pure trivial

variable (ho : opening.PartOf source)
include ho

theorem points_directiveContent {keyword : Token} (hk : keyword.PartOf source) :
    Points source (directiveContent e opening keyword) := by
  unfold directiveContent
  split
  · exact hp.map _
  · exact points_pure _
  · exact points_pure _
  · exact points_loopHeader hp
  · exact points_pure _
  · exact (points_reportFirst (hk.range.reportAfter ho.range _)).map _

theorem marks_directive : Marks source (directive e opening) fun r =>
    ∀ p ∈ r.1, p.PartOf source := by
  have hlost : Marks source (skipPast .sequenceEnd >>= fun _ =>
      pure ((none : Option TemplatePart), false)) fun r => ∀ p ∈ r.1, p.PartOf source :=
    (points_skipPast _).bind fun _ => marks_pure (by simp)
  refine marks_peek_bind fun keyword hk => ?_
  split
  · exact (points_reportFirst (hk.range.reportAfter ho.range _)).bind fun _ => hlost
  refine points_skip.bind fun _ => (points_directiveContent hp ho hk).bind fun d => ?_
  split
  · exact hlost
  · refine (points_closeSequence _ ho.range).bind fun strip =>
      marks_previousRange.bind fun stop hs => marks_pure fun p hm => ?_
    obtain rfl := Option.mem_some.mp hm
    exact ho.range.between hs

omit ho

theorem marks_templateStep (closer : TokenKind) {start : SourceRange} (hs : source.PartOf start)
    (a : TemplateParts) (ha : ∀ p ∈ a.parts, p.PartOf source) :
    Marks source (templateStep e closer start a) fun r => ∀ p ∈ r.1.parts, p.PartOf source := by
  have hbefore (t : Token) := TemplateParts.forall_before (fun _ _ => trivial) ha t
  have hconcat {parts : List TemplatePart} {p : TemplatePart}
      (hparts : ∀ x ∈ parts, x.PartOf source) (hp : p.PartOf source) :
      ∀ x ∈ parts ++ [p], x.PartOf source :=
    List.forall_mem_append.mpr ⟨hparts, List.forall_mem_singleton.mpr hp⟩
  refine marks_read_bind fun next ht => ?_
  split
  · exact marks_pure ha
  split
  · exact (points_chunk ht).bind fun _ => marks_pure (hconcat ha trivial)
  · exact (points_chunk ht).bind fun _ => marks_pure (hconcat ha trivial)
  · exact (marks_interpolation hp hs).bind fun r hr => marks_pure (hconcat (hbefore next) hr)
  · refine ((marks_directive hp ht).withNewlines false).bind fun r hr => marks_pure ?_
    exact List.forall_mem_append.mpr ⟨hbefore next, by simpa using hr⟩
  · refine (points_reportFirst (ht.range.reportAfter hs _)).bind fun _ => ?_
    dsimp only
    split
    · exact points_recover.bind fun _ => marks_pure ha
    · exact (points_skipPast _).bind fun _ => points_recover.bind fun _ => marks_pure ha

theorem points_template {opening : SourceRange} (closer : TokenKind) :
    Points source (template e opening closer) := by
  refine marks_peek_bind fun start hs => (Marks.iterate
    (I := fun a => ∀ p ∈ a.parts, p.PartOf source)
    (marks_templateStep hp closer hs.range) (by simp)).bind fun a ha =>
      marks_previousRange.bind fun close hclose => ?_
  have hparts : ∀ p ∈ (if a.parts.isEmpty then
      [TemplatePart.text "" (.point start.range.filename start.range.start)] else a.parts),
      p.PartOf source := by
    split
    · simp [TemplatePart.PartOf]
    · exact ha
  refine (points_tell (Nesting.points_ofParts hparts hclose.startPoint)).bind fun _ => ?_
  split <;> exact points_pure _

end

end Parser

end HclSyntax
