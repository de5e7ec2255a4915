import HclSyntax.Proofs.Grammar.Nested

namespace HclSyntax

theorem Nested.append {ps qs : List Piece} {es fs : List Tree} (h : Nested ps es)
    (h' : Nested qs fs) : Nested (ps ++ qs) (es ++ fs) := by
  induction h with
  | nil => exact h'
  | text _ ih => exact ih.text
  | interpolation _ ih => exact ih.interpolation
  | conditional ha _ _ ih => simpa using ha.conditional ih
  | alternative ha hb _ _ _ ih => simpa using ha.alternative hb ih
  | loop ha _ _ ih => simpa using ha.loop ih

namespace Nesting

/-- The pieces of a template read so far, with the directives still open in it: `frames` and
`exprs` are what was made of `ps`. -/
inductive Holds : List Frame → List Expr → List Piece → Prop
  | outside {es : List Expr} {ps : List Piece} (h : Nested ps (es.map Expr.tree)) :
    Holds [] es ps
  | ifTrue {frames : List Frame} {es : List Expr} {ps qs : List Piece} {c : Expr}
    {r : SourceRange} {as : List Expr} (h : Holds frames es ps)
    (ha : Nested qs (as.map Expr.tree)) :
    Holds (.conditional c r as none :: frames) es (ps ++ .sequence (.ifStart c.tree) :: qs)
  | ifFalse {frames : List Frame} {es : List Expr} {ps qs qs' : List Piece} {c : Expr}
    {r : SourceRange} {as bs : List Expr} (h : Holds frames es ps)
    (ha : Nested qs (as.map Expr.tree)) (hb : Nested qs' (bs.map Expr.tree)) :
    Holds (.conditional c r as (some bs) :: frames) es
      (ps ++ .sequence (.ifStart c.tree) :: qs ++ .sequence .elseMark :: qs')
  | loop {frames : List Frame} {es : List Expr} {ps qs : List Piece} {k : Option String}
    {v : String} {c : Expr} {r : SourceRange} {as : List Expr} (h : Holds frames es ps)
    (ha : Nested qs (as.map Expr.tree)) :
    Holds (.loop k v c r as :: frames) es (ps ++ .sequence (.forStart k v c.tree) :: qs)

/-- An expression that is a row of pieces by itself goes to the innermost directive. -/
theorem Holds.push {n : Nesting} {ps qs : List Piece} {e : Expr}
    (h : Holds n.frames n.exprs ps) (he : Nested qs [e.tree]) :
    Holds (n.push e).frames (n.push e).exprs (ps ++ qs) := by
  obtain ⟨frames, exprs, ds⟩ := n
  unfold Nesting.push
  cases h with
  | outside hp =>
    refine .outside ?_
    rw [List.map_append]
    exact hp.append he
  | ifTrue hn ha =>
    rw [List.append_assoc, List.cons_append]
    refine .ifTrue hn ?_
    rw [List.map_append]
    exact ha.append he
  | ifFalse hn ha hb =>
    rw [List.append_assoc, List.cons_append]
    refine .ifFalse hn ha ?_
    rw [List.map_append]
    exact hb.append he
  | loop hn ha =>
    rw [List.append_assoc, List.cons_append]
    refine .loop hn ?_
    rw [List.map_append]
    exact ha.append he

theorem tree_branch (es : List Expr) (r : SourceRange) :
    (branch es r).tree = Tree.branch (es.map Expr.tree) := by
  cases es <;> simp [branch, Tree.branch, Expr.tree]

theorem tree_closeConditional (c : Expr) (r : SourceRange) (as : List Expr)
    (bs : Option (List Expr)) (stop : SourceRange) : (closeConditional c r as bs stop).tree =
      .conditional c.tree (.branch (as.map Expr.tree)) (.branch ((bs.getD []).map Expr.tree)) := by
  simp [closeConditional, Expr.tree, tree_branch]

theorem tree_closeLoop (k : Option String) (v : String) (c : Expr) (r : SourceRange)
    (as : List Expr) (stop : SourceRange) : (closeLoop k v c r as stop).tree =
      .templateJoin (.comprehension k v c.tree none (.branch (as.map Expr.tree)) none false) := by
  simp [closeLoop, Expr.tree, tree_branch]

variable {n : Nesting} {ps : List Piece}

/-- What holds of the pieces unless something was reported. -/
def Reads (n : Nesting) (ps : List Piece) : Prop :=
  n.diagnostics = [] → Holds n.frames n.exprs ps

theorem reads_fail (n : Nesting) (p : Problem) (r : SourceRange) (ps : List Piece) :
    (n.fail p r).Reads ps := by
  intro hd
  simp [fail] at hd

theorem Reads.directive (h : n.Reads ps) (d : Directive) (r : SourceRange) :
    (n.directive d r).Reads (ps ++ [.sequence d.sequence]) := by
  unfold Nesting.directive
  split
  case h_1 => exact fun hd => (h hd).ifTrue .nil
  case h_2 => exact fun hd => (h hd).loop .nil
  case h_3 c r as frames hf =>
    intro hd
    have hn := h hd
    rw [hf] at hn
    cases hn with
    | ifTrue hn ha => exact hn.ifFalse ha .nil
  case h_7 c r as bs frames hf =>
    intro hd
    rw [diagnostics_push] at hd
    have hn := h hd
    rw [hf] at hn
    cases hn with
    | ifTrue hn ha =>
      rw [List.append_assoc]
      refine Holds.push (n := { n with frames := frames }) hn ?_
      rw [tree_closeConditional]
      exact ha.conditional .nil
    | ifFalse hn ha hb =>
      rw [List.append_assoc, List.append_assoc, ← List.append_assoc (Piece.sequence (.ifStart _) :: _)]
      refine Holds.push (n := { n with frames := frames }) hn ?_
      rw [tree_closeConditional]
      exact ha.alternative hb .nil
  case h_10 k v c r as frames hf =>
    intro hd
    rw [diagnostics_push] at hd
    have hn := h hd
    rw [hf] at hn
    cases hn with
    | loop hn ha =>
      rw [List.append_assoc]
      refine Holds.push (n := { n with frames := frames }) hn ?_
      rw [tree_closeLoop]
      exact ha.loop .nil
  -- every other directive fits nothing that is open
  all_goals exact reads_fail _ _ _ _

theorem Reads.step (h : n.Reads ps) (p : TemplatePart) : (n.part p).Reads (ps ++ [p.piece]) := by
  cases p with
  | text value r =>
    intro hd
    rw [Nesting.part, diagnostics_push] at hd
    exact (h hd).push (Nested.nil.text)
  | interpolation e r =>
    intro hd
    rw [Nesting.part, diagnostics_push] at hd
    exact (h hd).push (Nested.nil.interpolation)
  | directive d r => exact h.directive d r

theorem Reads.foldl (parts : List TemplatePart) (h : n.Reads ps) :
    (parts.foldl part n).Reads (ps ++ parts.map TemplatePart.piece) := by
  induction parts generalizing n ps with
  | nil => simpa using h
  | cons p parts ih => simpa using ih (h.step p)

/-- Where nothing is reported, the expressions are the nesting of the parts. -/
theorem nested_ofParts {parts : List TemplatePart} {stop : SourceRange}
    (h : (ofParts parts stop).2 = []) :
    Nested (parts.map TemplatePart.piece) ((ofParts parts stop).1.map Expr.tree) := by
  have hn : Reads ⟨[], [], []⟩ [] := fun _ => .outside .nil
  have hr := Reads.foldl parts hn
  unfold ofParts finish at h ⊢
  split at h
  · rename_i hf
    simp only [hf, if_true]
    have hh := hr h
    rw [List.isEmpty_iff.mp hf] at hh
    cases hh with
    | outside hp => simpa using hp
  · rename_i hf
    have := (List.append_eq_nil_iff.mp h).2
    simp_all

end Nesting

end HclSyntax
