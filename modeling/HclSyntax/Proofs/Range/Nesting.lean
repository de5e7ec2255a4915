import HclSyntax.Proofs.Range.Tree
import Mathlib.Data.List.Basic

namespace HclSyntax

namespace SourceRange

/-- Between two places, none of the ranges begins before the one in front of it ends. -/
def Row : Nat → List SourceRange → Nat → Prop
  | lo, [], hi => lo ≤ hi
  | lo, r :: rs, hi => lo ≤ r.lo ∧ r.lo ≤ r.hi ∧ Row r.hi rs hi

namespace Row

variable {lo hi hi' : Nat} {r s : SourceRange} {rs : List SourceRange}

theorem le (h : Row lo rs hi) : lo ≤ hi := by
  induction rs generalizing lo with
  | nil => exact h
  | cons r rs ih => exact Nat.le_trans h.1 (Nat.le_trans h.2.1 (ih h.2.2))

theorem mono (h : Row lo rs hi) (hle : hi ≤ hi') : Row lo rs hi' := by
  induction rs generalizing lo with
  | nil => exact Nat.le_trans h hle
  | cons r rs ih => exact ⟨h.1, h.2.1, ih h.2.2⟩

/-- One more at the end. -/
theorem concat (h : Row lo rs hi) (hlo : hi ≤ r.lo) (hr : r.lo ≤ r.hi) (hhi : r.hi ≤ hi') :
    Row lo (rs ++ [r]) hi' := by
  induction rs generalizing lo with
  | nil => exact ⟨Nat.le_trans h hlo, hr, hhi⟩
  | cons s rs ih => exact ⟨h.1, h.2.1, ih h.2.2⟩

theorem of_mem (h : Row lo rs hi) (hr : r ∈ rs) : lo ≤ r.lo ∧ r.lo ≤ r.hi ∧ r.hi ≤ hi := by
  induction rs generalizing lo with
  | nil => cases hr
  | cons s rs ih =>
    obtain ⟨hlo, hs, hrest⟩ := h
    rcases List.mem_cons.mp hr with rfl | hr
    · exact ⟨hlo, hs, hrest.le⟩
    · have := ih hrest hr
      omega

/-- A row lies between the beginning of its first range and the end of its last one. -/
theorem last (h : Row lo (r :: rs) hi) : Row r.lo (r :: rs) (rs.getLastD r).hi := by
  induction rs generalizing r lo with
  | nil => exact ⟨Nat.le_refl _, h.2.1, Nat.le_refl _⟩
  | cons s rs ih =>
    obtain ⟨-, hr, hs, hrest⟩ := h
    have hrow : Row r.hi (s :: rs) hi := ⟨hs, hrest⟩
    obtain ⟨-, hforward, hlast⟩ := ih hrow
    rw [List.getLastD_cons]
    exact ⟨Nat.le_refl _, hr, hs, hforward, hlast⟩

end Row

end SourceRange

open SourceRange (Row)

/-- Expressions in a row. -/
structure ExprRow (lo : Nat) (es : List Expr) (hi : Nat) : Prop where
  row : Row lo (es.map (·.range)) hi
  nests : ∀ e ∈ es, e.Nests

namespace ExprRow

variable {lo hi hi' : Nat} {e : Expr} {es : List Expr} {r : SourceRange}

theorem nil (h : lo ≤ hi) : ExprRow lo [] hi := ⟨h, by simp⟩

theorem mono (h : ExprRow lo es hi) (hle : hi ≤ hi') : ExprRow lo es hi' :=
  ⟨h.row.mono hle, h.nests⟩

theorem concat (h : ExprRow lo es hi) (he : e.Spans hi hi') : ExprRow lo (es ++ [e]) hi' := by
  refine ⟨?_, by simpa [or_imp, forall_and] using ⟨h.nests, he.nests⟩⟩
  rw [List.map_append]
  exact h.row.concat he.from_le he.forward he.le_to

theorem inside (h : ExprRow lo es hi) : ∀ e ∈ es, e.Inside lo hi := by
  intro e he
  obtain ⟨hlo, -, hhi⟩ := h.row.of_mem (List.mem_map_of_mem he)
  exact ⟨h.nests e he, hlo, hhi⟩

/-- A branch lies where its expressions do, and an empty one where it is put. -/
theorem branch (h : ExprRow lo es hi) (hlo : lo ≤ r.lo) (hr : r.lo = r.hi) (hhi : r.hi ≤ hi) :
    (Nesting.branch es r).Spans lo hi := by
  cases es with
  | nil =>
    exact ⟨⟨Expr.nests_of_children (by simp [Expr.children, Nesting.branch]), hlo, hhi⟩,
      Nat.le_of_eq hr⟩
  | cons first others =>
    have hlast := h.row.last
    have hend : (others.map (·.range)).getLastD first.range = (others.getLastD first).range := by
      simp [List.getLastD_eq_getLast?, Option.getD_map]
    rw [hend] at hlast
    have hfirst := h.row.of_mem (r := first.range) (by simp)
    have hother := h.row.of_mem (List.mem_map_of_mem List.getLastD_mem_cons)
    have hlo : (Nesting.branch (first :: others) r).range.lo =
        min first.range.lo (others.getLastD first).range.lo := SourceRange.lo_between
    have hhi : (Nesting.branch (first :: others) r).range.hi =
        max first.range.hi (others.getLastD first).range.hi := SourceRange.hi_between
    refine ⟨⟨Expr.nests_of_children fun x hx => ?_, by omega, by omega⟩, by omega⟩
    have hx' : first.range.lo ≤ x.range.lo ∧ x.range.lo ≤ x.range.hi ∧
        x.range.hi ≤ (others.getLastD first).range.hi := hlast.of_mem (List.mem_map_of_mem hx)
    exact ⟨h.nests x hx, by omega, by omega⟩

end ExprRow

/-- The expression that a directive holds. -/
def Directive.expr? : Directive → Option Expr
  | .ifStart e | .forStart _ _ e => some e
  | .elseMark | .endif | .endfor => none

namespace TemplatePart

def range : TemplatePart → SourceRange
  | .text _ r | .interpolation _ r | .directive _ r => r

/-- The expression that a part holds. -/
def expr? : TemplatePart → Option Expr
  | .text .. => none
  | .interpolation e _ => some e
  | .directive d _ => d.expr?

/-- The expression of the part lies inside it. -/
def Holds (p : TemplatePart) : Prop := ∀ e ∈ p.expr?, e.Spans p.range.lo p.range.hi

end TemplatePart

/-- What the frame holds stands in the order of the source, behind `lo`. -/
def Frame.Lies (lo : Nat) (f : Frame) (hi : Nat) : Prop :=
  match f with
  | .conditional condition r ifTrue ifFalse => lo ≤ r.lo ∧ condition.Spans r.lo r.hi ∧
    ∃ mid, ExprRow r.hi ifTrue mid ∧ ExprRow mid (ifFalse.getD []) hi
  | .loop _ _ collection r body => lo ≤ r.lo ∧ collection.Spans r.lo r.hi ∧ ExprRow r.hi body hi

namespace Nesting

/-- Each open directive stands behind what the one outside of it holds so far. -/
def FramesLie (lo : Nat) (exprs : List Expr) : List Frame → Nat → Prop
  | [], hi => ExprRow lo exprs hi
  | f :: frames, hi => ∃ mid, FramesLie lo exprs frames mid ∧ f.Lies mid hi

/-- All of the template so far lies between two places. -/
def Lies (lo : Nat) (n : Nesting) (hi : Nat) : Prop := FramesLie lo n.exprs n.frames hi

variable {lo hi hi' : Nat} {n : Nesting} {e : Expr} {f : Frame} {frames : List Frame}
  {r : SourceRange}

theorem frameLies_mono (h : f.Lies lo hi) (hle : hi ≤ hi') : f.Lies lo hi' := by
  cases f with
  | conditional =>
    obtain ⟨hlo, hc, mid, ht, hf⟩ := h
    exact ⟨hlo, hc, mid, ht, hf.mono hle⟩
  | loop =>
    obtain ⟨hlo, hc, hb⟩ := h
    exact ⟨hlo, hc, hb.mono hle⟩

theorem le_of_frameLies (h : f.Lies lo hi) : lo ≤ hi := by
  cases f with
  | conditional =>
    obtain ⟨hlo, ⟨⟨-, hc, hc'⟩, hc''⟩, mid, ht, hf⟩ := h
    have := ht.row.le
    have := hf.row.le
    omega
  | loop =>
    obtain ⟨hlo, ⟨⟨-, hc, hc'⟩, hc''⟩, hb⟩ := h
    have := hb.row.le
    omega

theorem framesLie_mono {exprs : List Expr} (h : FramesLie lo exprs frames hi) (hle : hi ≤ hi') :
    FramesLie lo exprs frames hi' := by
  cases frames with
  | nil => exact ExprRow.mono h hle
  | cons f frames =>
    obtain ⟨mid, hframes, hf⟩ := h
    exact ⟨mid, hframes, frameLies_mono hf hle⟩

/-- What is outside of all directives is a row. -/
theorem exprRow_of_framesLie {exprs : List Expr} (h : FramesLie lo exprs frames hi) :
    ExprRow lo exprs hi := by
  induction frames generalizing hi with
  | nil => exact h
  | cons f frames ih =>
    obtain ⟨mid, hframes, hf⟩ := h
    exact (ih hframes).mono (le_of_frameLies hf)

theorem Lies.push (h : n.Lies lo hi) (he : e.Spans hi hi') : (n.push e).Lies lo hi' := by
  obtain ⟨frames, exprs, diagnostics⟩ := n
  unfold Nesting.push
  dsimp only
  split
  · exact ExprRow.concat h he
  · obtain ⟨mid, hframes, hlo, hc, mid', ht, hf⟩ := h
    exact ⟨mid, hframes, hlo, hc, hi', (ht.mono hf.row.le).concat he, .nil (Nat.le_refl _)⟩
  · obtain ⟨mid, hframes, hlo, hc, mid', ht, hf⟩ := h
    exact ⟨mid, hframes, hlo, hc, mid', ht, hf.concat he⟩
  · obtain ⟨mid, hframes, hlo, hc, hb⟩ := h
    exact ⟨mid, hframes, hlo, hc, hb.concat he⟩

theorem spans_placeholder (hlo : lo ≤ r.lo) (hr : r.lo ≤ r.hi) (hhi : r.hi ≤ hi) :
    (Expr.placeholder r).Spans lo hi :=
  ⟨⟨Expr.nests_of_children (by simp [Expr.children, Expr.placeholder]), hlo, hhi⟩, hr⟩

theorem Lies.fail (h : n.Lies lo hi) (p : Problem) (hlo : hi ≤ r.lo) (hr : r.lo ≤ r.hi)
    (hhi : r.hi ≤ hi') : (n.fail p r).Lies lo hi' :=
  Lies.push (n := { n with diagnostics := n.diagnostics ++ [p.toDiagnostic r none] }) h
    (spans_placeholder hlo hr hhi)

/-- The innermost directive is given up. -/
theorem Lies.drop (h : n.Lies lo hi) (hn : n.frames = f :: frames) :
    Lies lo { n with frames } hi := by
  rw [Lies, hn] at h
  obtain ⟨mid, hframes, hf⟩ := h
  exact framesLie_mono hframes (le_of_frameLies hf)

section
variable {condition collection : Expr} {start stop : SourceRange} {ifTrue body : List Expr}
  {ifFalse : Option (List Expr)} {key : Option String} {value : String}

/-- A conditional lies from its first directive to its last. -/
theorem spans_closeConditional (h : (Frame.conditional condition start ifTrue ifFalse).Lies lo hi)
    (hlo : hi ≤ stop.lo) (hr : stop.lo ≤ stop.hi) :
    (closeConditional condition start ifTrue ifFalse stop).Spans lo stop.hi := by
  obtain ⟨hfrom, hc, mid, ht, hf⟩ := h
  have htrue := ht.branch (r := start.endPoint) (Nat.le_refl _) rfl ht.row.le
  have hfalse := (hf.mono hlo).branch (r := .point stop.filename stop.start)
    (Nat.le_trans hf.row.le hlo) rfl (Nat.le_refl _)
  have := hc.from_le
  have := hc.forward
  have := hc.le_to
  have := ht.row.le
  have := hf.row.le
  let e := closeConditional condition start ifTrue ifFalse stop
  have helo : e.range.lo = min start.lo stop.lo := SourceRange.lo_between
  have hehi : e.range.hi = max start.hi stop.hi := SourceRange.hi_between
  refine ⟨⟨Expr.nests_of_children fun x hx => ?_, ?_, ?_⟩, ?_⟩
  · simp only [closeConditional, Expr.children, List.mem_cons, List.not_mem_nil, or_false] at hx
    change x.Inside e.range.lo e.range.hi
    rcases hx with rfl | rfl | rfl
    · exact hc.toInside.mono (by omega) (by omega)
    · exact htrue.toInside.mono (by omega) (by omega)
    · exact hfalse.toInside.mono (by omega) (by omega)
  · change lo ≤ e.range.lo
    omega
  · change e.range.hi ≤ stop.hi
    omega
  · change e.range.lo ≤ e.range.hi
    omega

theorem spans_closeLoop (h : (Frame.loop key value collection start body).Lies lo hi)
    (hlo : hi ≤ stop.lo) (hr : stop.lo ≤ stop.hi) :
    (closeLoop key value collection start body stop).Spans lo stop.hi := by
  obtain ⟨hfrom, hc, hb⟩ := h
  have hbody := hb.branch (r := start.endPoint) (Nat.le_refl _) rfl hb.row.le
  have := hc.from_le
  have := hc.forward
  have := hc.le_to
  have := hb.row.le
  let whole := SourceRange.between start stop
  have hwlo : whole.lo = min start.lo stop.lo := SourceRange.lo_between
  have hwhi : whole.hi = max start.hi stop.hi := SourceRange.hi_between
  let inner : Expr := .comprehension key value collection none (branch body start.endPoint) none
    false start stop whole
  have hinner : inner.Nests := Expr.nests_of_children fun x hx => by
    rcases List.mem_pair.mp hx with rfl | rfl
    · exact hc.toInside.mono (by change whole.lo ≤ _; omega) (by change _ ≤ whole.hi; omega)
    · exact hbody.toInside.mono (by change whole.lo ≤ _; omega) (by change _ ≤ whole.hi; omega)
  refine ⟨⟨Expr.nests_of_children fun x hx => ?_, ?_, ?_⟩, ?_⟩
  · obtain rfl := List.mem_singleton.mp hx
    exact ⟨hinner, Nat.le_refl _, Nat.le_refl _⟩
  · change lo ≤ whole.lo
    omega
  · change whole.hi ≤ stop.hi
    omega
  · change whole.lo ≤ whole.hi
    omega

end

/-- A directive that was met between two places, at `r`. -/
theorem Lies.directive {d : Directive} (h : n.Lies lo hi) (hlo : hi ≤ r.lo) (hr : r.lo ≤ r.hi)
    (hd : ∀ e ∈ d.expr?, e.Spans r.lo r.hi) : (n.directive d r).Lies lo r.hi := by
  unfold Nesting.directive
  split
  case h_1 | h_2 =>
    have hend := Nat.le_refl r.hi
    first
      | exact ⟨hi, h, hlo, hd _ rfl, r.hi, .nil hend, .nil hend⟩
      | exact ⟨hi, h, hlo, hd _ rfl, .nil hend⟩
  case h_3 hn =>
    rw [Lies, hn] at h
    obtain ⟨mid, hframes, hfrom, hc, mid', ht, hf⟩ := h
    exact ⟨mid, hframes, hfrom, hc, mid', ht, hf.mono (Nat.le_trans hlo hr)⟩
  case h_7 hn =>
    rw [Lies, hn] at h
    obtain ⟨mid, hframes, hf⟩ := h
    exact Lies.push (n := { n with frames := _ }) hframes (spans_closeConditional hf hlo hr)
  case h_10 hn =>
    rw [Lies, hn] at h
    obtain ⟨mid, hframes, hf⟩ := h
    exact Lies.push (n := { n with frames := _ }) hframes (spans_closeLoop hf hlo hr)
  -- a directive that fits nothing that is open
  case h_6 | h_9 | h_12 => exact h.fail _ hlo hr (Nat.le_refl _)
  all_goals
    rename_i hn
    exact (h.drop hn).fail _ hlo hr (Nat.le_refl _)

theorem Lies.part {p : TemplatePart} (h : n.Lies lo hi) (hlo : hi ≤ p.range.lo)
    (hr : p.range.lo ≤ p.range.hi) (hp : p.Holds) : (n.part p).Lies lo p.range.hi := by
  cases p with
  | text value range =>
    exact h.push ⟨⟨Expr.nests_of_children (by simp [Expr.children]), hlo, Nat.le_refl _⟩, hr⟩
  | interpolation e range =>
    exact h.push ((hp e rfl).mono hlo (Nat.le_refl _))
  | directive d range => exact h.directive hlo hr hp

theorem Lies.foldl {parts : List TemplatePart} {mid : Nat} (h : n.Lies lo mid)
    (hrow : Row mid (parts.map (·.range)) hi) (hp : ∀ p ∈ parts, p.Holds) :
    (parts.foldl Nesting.part n).Lies lo hi := by
  induction parts generalizing n mid with
  | nil => exact framesLie_mono h hrow
  | cons p parts ih =>
    obtain ⟨hp, hps⟩ := List.forall_mem_cons.mp hp
    exact ih (h.part hrow.1 hrow.2.1 hp) hrow.2.2 hps

/-- The expressions of a template lie where its parts do. What is missing at the end is put where
`stop` is. -/
theorem inside_ofParts {parts : List TemplatePart} {stop : SourceRange}
    (h : Row lo (parts.map (·.range)) hi) (hp : ∀ p ∈ parts, p.Holds) (hlo : lo ≤ stop.lo)
    (hstop : stop.hi ≤ hi) : ∀ e ∈ (ofParts parts stop).1, e.Inside lo hi := by
  have hfold := Lies.foldl (n := ⟨[], [], []⟩) (ExprRow.nil (Nat.le_refl lo)) h hp
  have hrow := exprRow_of_framesLie hfold
  unfold ofParts finish
  split
  · exact hrow.inside
  · intro e he
    rcases List.mem_append.mp he with he | he
    · exact hrow.inside e he
    · obtain rfl := List.mem_singleton.mp he
      exact ⟨Expr.nests_of_children (by simp [Expr.children, Expr.placeholder]), hlo, hstop⟩

end Nesting

end HclSyntax
