import HclSyntax.Proofs.Pointing.Run
import HclSyntax.Proofs.Range.Collection

namespace HclSyntax.Parser

variable {source : SourceRange} {c : Cursor} {opening : Token} {e : Parser Expr}

section
variable (ho : opening.PartOf source)
include ho

theorem points_reportComprehension (p : ComprehensionProblem) :
    Points source (reportComprehension opening p) :=
  marks_peek_bind fun _ ht => points_reportFirst (ht.range.reportAfter ho.range _)

omit ho in
theorem points_abandonComprehension : Points source (abandonComprehension opening) :=
  (points_skipPast _).bind fun _ => marks_previousRange.bind fun _ _ => points_pure _

theorem points_inKeyword (key : Option String) (value : String) :
    Points source (inKeyword opening key value) := by
  refine marks_atKeyword_bind fun b => ?_
  split
  · exact points_skip.map _
  · exact (points_reportComprehension ho _).map _

theorem points_binders : Points source (binders opening) := by
  have hlost (p : ComprehensionProblem) : Points source (reportComprehension opening p >>= fun _ =>
      pure (none : Option (Option String × String))) :=
    (points_reportComprehension ho p).map _
  refine marks_peekKind_bind fun k => ?_
  split
  · exact hlost _
  refine marks_read_bind fun first _ => marks_peekKind_bind fun k => ?_
  split
  · exact points_inKeyword ho _ _
  refine points_skip.bind fun _ => marks_peekKind_bind fun k => ?_
  split
  · exact hlost _
  · exact marks_read_bind fun second _ => points_inKeyword ho _ _

theorem marks_closeComprehension : Marks source (closeComprehension opening) source.PartOf := by
  refine marks_peekKind_bind fun k => ?_
  split
  · exact points_skip.bind fun _ => marks_previousRange
  · exact (points_reportComprehension ho _).bind fun _ => (points_skipPast _).bind fun _ =>
      marks_previousRange

end

theorem points_checkResult {key : Option Expr} {value : Expr} {ellipsis : Option Token}
    {whole : SourceRange} (hw : source.PartOf whole) (hkey : ∀ x ∈ key, whole.PartOf x.range)
    (hvalue : whole.PartOf value.range) (hellipsis : ∀ t ∈ ellipsis, whole.PartOf t.range) :
    Points source (checkResult opening key value ellipsis whole) := by
  have hunexpected (x : Expr) (hx : x ∈ key) :=
    points_report (hw.reportIn (hkey x hx) (.comprehension .unexpectedKey))
  have hgroup (t : Token) (ht : t ∈ ellipsis) :=
    points_report (hw.reportIn (hellipsis t ht) (.comprehension .unexpectedGrouping))
  unfold checkResult
  split
  · split
    · exact points_report (hw.reportIn hvalue _)
    · exact points_pure ()
  cases key with
  | none =>
    cases ellipsis with
    | none => exact points_pure ()
    | some t => exact hgroup t rfl
  | some key =>
    refine (hunexpected key rfl).bind fun _ => ?_
    cases ellipsis with
    | none => exact points_pure ()
    | some t => exact hgroup t rfl

/-- Where the ellipsis is, if there is one. -/
theorem ends_groupingEllipsis (hc : c.Follows opening) : Ends groupingEllipsis c fun r c' =>
    c.Further c' ∧ ∀ t ∈ r, opening.range.lo ≤ t.range.lo ∧ t.range.hi ≤ c'.behind := by
  obtain ⟨-, hp⟩ := hc.inOrder.next
  refine arrives_peekKind_bind ?_
  split
  · refine arrives_read_bind (arrives_pure ⟨hc.inOrder.skip, fun t ht => ?_⟩)
    obtain rfl := Option.mem_some.mp ht
    exact ⟨hc.lo_le_peek, hp.behind_eq.ge⟩
  · exact arrives_pure ⟨hc.inOrder.further (.refl c), by simp⟩

theorem marks_groupingEllipsis :
    Marks source groupingEllipsis fun r => ∀ t ∈ r, t.PartOf source := by
  refine marks_peekKind_bind fun k => ?_
  split
  · exact marks_read_bind fun t ht => marks_pure (by simpa using ht)
  · exact marks_pure (by simp)

section
variable (hp : Points source e)
include hp

theorem points_resultPair : Points source (resultPair e) := by
  refine hp.bind fun first => marks_peekKind_bind fun k => ?_
  split
  · exact points_skip.bind fun _ => hp.map _
  · exact points_pure _

theorem points_filter : Points source (filter e) := by
  refine marks_atKeyword_bind fun b => ?_
  split
  · exact points_skip.bind fun _ => hp.map _
  · exact points_pure _

variable (ho : opening.PartOf source) (he : Lays e) (hf : Framed e)
include ho he hf

theorem pointsFrom_comprehensionResult (keyVar : Option String) (valueVar : String)
    (collection : Expr) (hon : c.On source) (hc : c.Follows opening) :
    MarksFrom source c (comprehensionResult e opening keyVar valueVar collection)
      fun _ => True := by
  refine (points_resultPair hp hon).track_seq (ends_resultPair he hf hc)
    fun r lost c₁ hon₁ _ ⟨hl₁, hkey, hvalue⟩ => ?_
  obtain ⟨key, value⟩ := r
  have hc₁ := hc.later hl₁.toLater
  dsimp only
  split
  · exact points_abandonComprehension hon₁
  refine (marks_groupingEllipsis hon₁).seq (ends_groupingEllipsis hc₁)
    fun ellipsis c₂ hon₂ hpart ⟨hl₂, hellipsis⟩ => ?_
  have hc₂ := hc₁.later hl₂.toLater
  refine (points_filter hp hon₂).track_seq (ends_filter he hf hc₂)
    fun condition lost c₃ hon₃ _ ⟨hl₃, _⟩ => ?_
  have hc₃ := hc₂.later hl₃.toLater
  dsimp only
  split
  · exact points_abandonComprehension hon₃
  refine (marks_closeComprehension ho hon₃).seq (ends_closeComprehension hc₃.inOrder)
    fun close c₄ hon₄ hclose ⟨heq, hl₄⟩ => ?_
  subst heq
  -- everything read since the opening bracket lies in front of the closing one
  have hl := hc₃.inOrder.skip.trans hl₄
  obtain ⟨hlo, hhi⟩ := (hc₃.later hl.toLater).between
  have hwithin (x : Expr) (hx : x.Laid opening.range.lo c₃) :
      (SourceRange.between opening.range c₄.previousRange).PartOf x.range := by
    have hshut := hx.shut hl₄.toLater hc₃.inOrder
    exact ⟨hlo.le.trans hshut.from_le, hshut.forward, hshut.le_to.trans hhi.ge⟩
  refine (points_checkResult (ho.range.between hclose) (fun x hx => ?_) (hwithin value ?_)
    fun t ht => ?_).bind (fun _ => points_pure _) hon₄
  · exact hwithin x ((hkey x hx).further (hl₂.trans hl₃))
  · exact hvalue.further (hl₂.trans hl₃)
  · obtain ⟨hfrom, hto⟩ := hellipsis t ht
    exact ⟨hlo.le.trans hfrom, (hpart t ht).range.forward,
      (hto.trans (hl₃.trans hl).behind).trans hhi.ge⟩

theorem pointsFrom_comprehension (hon : c.On source) (hc : c.Follows opening) :
    MarksFrom source c (comprehension e opening) fun _ => True := by
  refine MarksFrom.withNewlines (marksFrom_skip_bind ?_)
  replace hc := (hc.enter false).later (hc.enter false).inOrder.skip.toLater
  refine (points_binders ho (hon.enter false).advance).seq (P := fun _ c' => c'.Follows opening)
    (framed.binders.follows hc) fun names c₁ hon₁ _ hc₁ => ?_
  split
  · exact points_abandonComprehension hon₁
  refine (hp hon₁).track_seq (P := fun _ c' => c'.Follows opening) (hf.follows hc₁)
    fun collection lost c₂ hon₂ _ hc₂ => ?_
  dsimp only
  split
  · exact points_abandonComprehension hon₂
  refine marksFrom_peekKind_bind ?_
  split
  · exact (points_reportComprehension ho _).bind (fun _ => points_abandonComprehension) hon₂
  · exact marksFrom_skip_bind (pointsFrom_comprehensionResult hp ho he hf _ _ _ hon₂.advance
      (hc₂.later hc₂.inOrder.skip.toLater))

end

section
variable (hp : Points source e) (ho : opening.PartOf source)
include hp ho

theorem points_tupleStep (items : List Expr) : Points source (tupleStep e opening items) := by
  refine marks_peekKind_bind fun k => ?_
  split
  · exact points_skip.map _
  refine hp.track.bind fun r _ => ?_
  dsimp only
  split
  · exact (points_skipPast _).map _
  refine marks_peek_bind fun next ht => ?_
  split
  · exact points_skip.map _
  · exact points_skip.map _
  · exact (points_reportFirst (ht.range.reportAfter ho.range _)).bind fun _ =>
      (points_skipPast _).map _

omit hp in
theorem points_objectSeparator : Points source (objectSeparator opening) := by
  refine marks_peek_bind fun next ht => ?_
  split
  · exact points_skip.map _
  · exact points_skip.map _
  · exact points_skip.map _
  · exact (points_reportFirst (ht.range.reportAfter ho.range _)).bind fun _ =>
      (points_skipPast _).map _

theorem points_objectItem (items : List (Expr × Expr)) :
    Points source (objectItem e opening items) := by
  have hlost : Points source (skipPast .closeBrace >>= fun _ => pure (items, false)) :=
    (points_skipPast _).map _
  refine marks_peek_bind fun start _ => hp.track.bind fun key _ => ?_
  dsimp only
  split
  · exact hlost
  refine marks_peek_bind fun next ht => ?_
  split
  · exact (points_reportFirst (ht.range.reportAfter ho.range _)).bind fun _ => hlost
  refine points_skip.bind fun _ => hp.track.bind fun value _ => ?_
  split
  · exact (points_skipPast _).map _
  · exact (points_objectSeparator ho).map _

theorem points_objectStep (items : List (Expr × Expr)) :
    Points source (objectStep e opening items) := by
  refine marks_peekKind_bind fun k => ?_
  split
  · exact points_skip.map _
  · exact points_skip.map _
  · exact points_objectItem hp ho items

theorem points_argumentStep {name : Token} (hn : name.PartOf source) (a : Arguments) :
    Points source (argumentStep e name opening a) := by
  have hlost (a : Arguments) : Points source (skipPast .closeParen >>= fun _ => pure (a, false)) :=
    (points_skipPast _).map _
  refine marks_peekKind_bind fun k => ?_
  split
  · exact points_skip.map _
  refine hp.track.bind fun arg _ => ?_
  dsimp only
  split
  · exact hlost _
  refine marks_read_bind fun sep ht => ?_
  have hcontext (m : Problem) := ht.range.reportAfter hn.range m
  split
  · exact points_pure _
  · exact points_pure _
  · refine marks_peekKind_bind fun k => ?_
    split
    · exact points_skip.map _
    · exact (points_reportFirst (hcontext _)).bind fun _ => hlost _
  · exact (points_report ((hn.range.between ho.range).report _)).bind fun _ => hlost _
  · exact (points_report (hcontext _)).bind fun _ => hlost _

theorem points_call {name : Token} (hn : name.PartOf source) :
    Points source (call e name opening) :=
  (Marks.withNewlines (Points.iterate (points_argumentStep hp ho hn) _) false).bind fun _ _ =>
    marks_previousRange.bind fun _ _ => points_pure _

variable (he : Lays e) (hf : Framed e)
include he hf

theorem pointsFrom_tuple (hon : c.On source) (hc : c.Follows opening) :
    MarksFrom source c (tuple e opening) fun _ => True := by
  refine MarksFrom.withNewlines (marksFrom_atKeyword_bind fun b => ?_)
  split
  · exact pointsFrom_comprehension hp ho he hf (hon.enter _) (hc.enter _)
  · exact (Points.iterate (points_tupleStep hp ho) _).bind
      (fun _ => marks_previousRange.bind fun _ _ => points_pure _) (hon.enter _)

theorem pointsFrom_object (hon : c.On source) (hc : c.Follows opening) :
    MarksFrom source c (object e opening) fun _ => True := by
  refine MarksFrom.withNewlines (marksFrom_atKeyword_bind fun b => ?_)
  split
  · exact pointsFrom_comprehension hp ho he hf (hon.enter _) (hc.enter _)
  · exact (Points.iterate (points_objectStep hp ho) _).bind
      (fun _ => marks_previousRange.bind fun _ _ => points_pure _) (hon.enter _)

end

end HclSyntax.Parser
