import HclSyntax.Proofs.Pointing.Expression

namespace HclSyntax.Parser

variable {source : SourceRange} {name : Token}

section
variable (hn : name.PartOf source)
include hn

theorem points_endOfLine (problem : TokenKind → Problem) :
    Points source (endOfLine name problem) := by
  refine marks_peek_bind fun next ht => ?_
  split
  · exact points_skip
  · exact points_skip
  · exact (points_reportFirst (ht.range.reportAfter hn.range _)).bind fun _ => points_skipItem

theorem marks_attributeValue (equals : Token) (singleLine : Bool) :
    Marks source (attributeValue name equals singleLine) fun a => source.PartOf a.nameRange := by
  refine points_expression.track.bind fun r _ => marks_previousRange.bind fun stop _ => ?_
  dsimp only
  split
  · exact marks_pure hn.range
  · split
    · exact points_skipItem.bind fun _ => marks_pure hn.range
    · exact (points_endOfLine hn _).bind fun _ => marks_pure hn.range

theorem points_reportHeader {t : Token} (ht : t.PartOf source) :
    Points source (reportHeader name t) := by
  have hcontext (m : Problem) := ht.range.reportAfter hn.range m
  unfold reportHeader
  dsimp only
  split
  · exact points_report (hcontext _)
  · exact points_report (hcontext _)
  · exact points_reportFirst (hcontext _)

theorem points_headerStep (h : BlockHeader) : Points source (headerStep name h) := by
  refine marks_peek_bind fun t ht => ?_
  split
  · exact points_skip.map _
  · refine points_skip.bind fun _ => (points_quotedString ht).observe.bind fun r _ => ?_
    dsimp only
    split
    · exact points_skipItem.map _
    · exact points_pure _
  · exact (points_reportHeader hn ht).bind fun _ => points_skipItem.map _

end

theorem points_closeSingleLine : Points source closeSingleLine := by
  refine marks_peek_bind fun close ht => ?_
  have hclose (m : Problem) := ht.range.report m
  split
  · exact points_skip
  dsimp only
  split
  · exact (points_report (hclose _)).bind fun _ => points_skipPast _
  · exact (points_report (hclose _)).bind fun _ => points_skipPast _
  · exact (points_reportFirst (hclose _)).bind fun _ => points_skipPast _

theorem points_singleLineBody : Points source singleLineBody := by
  have hnone : Points source (skipPast .closeBrace >>= fun _ => pure (none : Option Body)) :=
    (points_skipPast _).map _
  refine marks_read_bind fun name hn => ?_
  split
  · exact (points_reportFirst (hn.range.report _)).bind fun _ => hnone
  refine marks_peek_bind fun next ht => ?_
  have hboth := (hn.range.between ht.range).report (.singleAttributeRequired name.text)
  split
  · exact points_skip.bind fun _ => (marks_attributeValue hn _ _).bind fun _ _ =>
      points_closeSingleLine.map _
  · exact (points_report hboth).bind fun _ => hnone
  · exact (points_report hboth).bind fun _ => hnone
  · exact (points_report hboth).bind fun _ => hnone
  · exact (points_report (hn.range.report _)).bind fun _ => hnone

/-- The names of the attributes are in the source. -/
def Items.PartOf (source : SourceRange) (items : Items) : Prop :=
  ∀ a ∈ items.attributes, source.PartOf a.nameRange

theorem marks_define {items : Items} {a : Attribute} (hi : items.PartOf source)
    (ha : source.PartOf a.nameRange) : Marks source (items.define a) (Items.PartOf source) := by
  unfold Items.define
  split
  · exact marks_pure (List.forall_mem_append.mpr ⟨hi, List.forall_mem_singleton.mpr ha⟩)
  · rename_i first hfirst
    have hfirst := hi first (List.mem_of_find?_eq_some hfirst)
    refine (points_report ⟨ha, fun x hx => ?_, fun x _ hcode => absurd rfl hcode⟩).bind fun _ =>
      marks_pure hi
    obtain rfl := Option.mem_some.mp hx
    exact hfirst

section
variable {nested : Parser Body} (hb : Points source nested)
include hb

theorem points_blockBody : Points source (blockBody nested) := by
  refine marks_peekKind_bind fun k => ?_
  split
  · exact hb.map _
  · exact hb.map _
  · exact hb.map _
  · exact points_singleLineBody

theorem points_block (hn : name.PartOf source) : Points source (block nested name) := by
  refine (Points.iterate (points_headerStep hn) _).bind fun h => ?_
  split
  · exact points_pure _
  exact (points_blockBody hb).bind fun _ => marks_previousRange.bind fun _ _ =>
    (points_endOfLine hn _).map _

theorem marks_item (hn : name.PartOf source) {items : Items} (hi : items.PartOf source) :
    Marks source (item nested name items) (Items.PartOf source) := by
  refine marks_peek_bind fun next _ => ?_
  split
  · exact points_skip.bind fun _ => (marks_attributeValue hn _ _).bind fun _ ha =>
      marks_define hi ha
  · exact (points_block hb hn).bind fun _ => marks_pure hi
  · exact (points_block hb hn).bind fun _ => marks_pure hi
  · exact points_skipItem.bind fun _ => (points_report (hn.range.report _)).bind fun _ =>
      marks_pure hi

omit hb in
theorem points_reportItem {start : SourceRange} {t : Token} (hs : source.PartOf start)
    (ht : t.PartOf source) : Points source (reportItem start t) := by
  unfold reportItem
  split
  · exact points_reportFirst (ht.range.report _)
  · exact points_reportFirst (ht.range.reportAfter hs _)
  · exact points_reportFirst (ht.range.report _)

theorem marks_bodyStep (closer : TokenKind) {start : SourceRange} (hs : source.PartOf start)
    (items : Items) (hi : items.PartOf source) :
    Marks source (bodyStep nested closer start items) fun r => r.1.PartOf source := by
  refine marks_read_bind fun next ht => ?_
  split
  · exact marks_pure hi
  split
  · exact marks_pure hi
  · exact (marks_item hb ht hi).bind fun _ hi => marks_pure hi
  · exact (points_reportItem hs ht).bind fun _ => (points_skipPast _).bind fun _ => marks_pure hi

theorem points_bodyWith (closer : TokenKind) : Points source (bodyWith nested closer) :=
  marks_previousRange.bind fun _ hs => (Marks.iterate (I := Items.PartOf source)
    (marks_bodyStep hb closer hs) (by simp [Items.PartOf])).bind fun _ _ => points_pure _

end

theorem points_bodyFor (depth : Nat) (closer : TokenKind) :
    Points source (bodyFor depth closer) := by
  induction depth generalizing closer with
  | zero => exact points_invalid.map _
  | succ depth ih => exact points_bodyWith (ih .closeBrace) closer

theorem points_body (closer : TokenKind) : Points source (body closer) := by
  intro c hc b
  have heq : body closer ⟨c, b⟩ = bodyFor (c.remaining + 1) closer ⟨c, b⟩ := rfl
  rw [heq]
  exact points_bodyFor _ _ hc b

end HclSyntax.Parser
