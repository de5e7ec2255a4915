import HclSyntax.Proofs.Sound.Nesting

namespace HclSyntax.Nesting

/-- Adds expressions to the innermost directive. -/
def pushAll (n : Nesting) (es : List Expr) : Nesting := es.foldl push n

theorem pushAll_outside (exprs es : List Expr) (ds : List Diagnostic) :
    (⟨[], exprs, ds⟩ : Nesting).pushAll es = ⟨[], exprs ++ es, ds⟩ := by
  induction es generalizing exprs with
  | nil => simp [pushAll]
  | cons e es ih => simpa [pushAll, push] using ih (exprs ++ [e])

theorem pushAll_ifTrue (n : Nesting) (c : Expr) (r : SourceRange) (as es : List Expr) :
    ({ n with frames := .conditional c r as none :: n.frames } : Nesting).pushAll es =
      { n with frames := .conditional c r (as ++ es) none :: n.frames } := by
  induction es generalizing as with
  | nil => simp [pushAll]
  | cons e es ih => simpa [pushAll, push] using ih (as ++ [e])

theorem pushAll_ifFalse (n : Nesting) (c : Expr) (r : SourceRange) (as bs es : List Expr) :
    ({ n with frames := .conditional c r as (some bs) :: n.frames } : Nesting).pushAll es =
      { n with frames := .conditional c r as (some (bs ++ es)) :: n.frames } := by
  induction es generalizing bs with
  | nil => simp [pushAll]
  | cons e es ih => simpa [pushAll, push] using ih (bs ++ [e])

theorem pushAll_loop (n : Nesting) (k : Option String) (v : String) (c : Expr) (r : SourceRange)
    (as es : List Expr) :
    ({ n with frames := .loop k v c r as :: n.frames } : Nesting).pushAll es =
      { n with frames := .loop k v c r (as ++ es) :: n.frames } := by
  induction es generalizing as with
  | nil => simp [pushAll]
  | cons e es ih => simpa [pushAll, push] using ih (as ++ [e])

theorem eq_of_piece_text {p : TemplatePart} {value : String} (h : p.piece = .text value) :
    ∃ r, p = .text value r := by
  cases p with
  | text v r => exact ⟨r, by simpa [TemplatePart.piece] using h⟩
  | interpolation e r => simp [TemplatePart.piece] at h
  | directive d r => simp [TemplatePart.piece] at h

theorem eq_of_piece_interpolation {p : TemplatePart} {t : Tree}
    (h : p.piece = .sequence (.interpolation t)) : ∃ e r, p = .interpolation e r ∧ e.tree = t := by
  cases p with
  | text v r => simp [TemplatePart.piece] at h
  | interpolation e r => exact ⟨e, r, rfl, by simpa [TemplatePart.piece] using h⟩
  | directive d r => cases d <;> simp [TemplatePart.piece, Directive.sequence] at h

theorem eq_of_piece_ifStart {p : TemplatePart} {t : Tree} (h : p.piece = .sequence (.ifStart t)) :
    ∃ e r, p = .directive (.ifStart e) r ∧ e.tree = t := by
  cases p with
  | directive d r => cases d <;> simp_all [TemplatePart.piece, Directive.sequence]
  | _ => simp [TemplatePart.piece] at h

theorem eq_of_piece_elseMark {p : TemplatePart} (h : p.piece = .sequence .elseMark) :
    ∃ r, p = .directive .elseMark r := by
  cases p with
  | directive d r => cases d <;> simp_all [TemplatePart.piece, Directive.sequence]
  | _ => simp [TemplatePart.piece] at h

theorem eq_of_piece_endif {p : TemplatePart} (h : p.piece = .sequence .endif) :
    ∃ r, p = .directive .endif r := by
  cases p with
  | directive d r => cases d <;> simp_all [TemplatePart.piece, Directive.sequence]
  | _ => simp [TemplatePart.piece] at h

theorem eq_of_piece_forStart {p : TemplatePart} {k : Option String} {v : String} {t : Tree}
    (h : p.piece = .sequence (.forStart k v t)) :
    ∃ e r, p = .directive (.forStart k v e) r ∧ e.tree = t := by
  cases p with
  | directive d r => cases d <;> simp_all [TemplatePart.piece, Directive.sequence]
  | _ => simp [TemplatePart.piece] at h

theorem eq_of_piece_endfor {p : TemplatePart} (h : p.piece = .sequence .endfor) :
    ∃ r, p = .directive .endfor r := by
  cases p with
  | directive d r => cases d <;> simp_all [TemplatePart.piece, Directive.sequence]
  | _ => simp [TemplatePart.piece] at h

section
variable {n : Nesting} {c : Expr} {r r' : SourceRange} {as bs rest : List TemplatePart}
  {es fs : List Expr}

theorem foldl_conditional
    (h : as.foldl part { n with frames := .conditional c r [] none :: n.frames } =
      pushAll { n with frames := .conditional c r [] none :: n.frames } es) :
    (.directive (.ifStart c) r :: as ++ .directive .endif r' :: rest).foldl part n =
      rest.foldl part (n.push (closeConditional c r es none r')) := by
  rw [List.foldl_append]
  change (TemplatePart.directive .endif r' :: rest).foldl part
    (as.foldl part { n with frames := .conditional c r [] none :: n.frames }) = _
  rw [h, pushAll_ifTrue]
  rfl

theorem foldl_alternative {r₁ : SourceRange}
    (ha : as.foldl part { n with frames := .conditional c r [] none :: n.frames } =
      pushAll { n with frames := .conditional c r [] none :: n.frames } es)
    (hb : bs.foldl part { n with frames := .conditional c r es (some []) :: n.frames } =
      pushAll { n with frames := .conditional c r es (some []) :: n.frames } fs) :
    (.directive (.ifStart c) r :: as ++ .directive .elseMark r₁ :: bs ++
      .directive .endif r' :: rest).foldl part n =
      rest.foldl part (n.push (closeConditional c r es (some fs) r')) := by
  rw [List.foldl_append, List.foldl_append]
  change (TemplatePart.directive .endif r' :: rest).foldl part
    ((TemplatePart.directive .elseMark r₁ :: bs).foldl part
      (as.foldl part { n with frames := .conditional c r [] none :: n.frames })) = _
  rw [ha, pushAll_ifTrue]
  change (TemplatePart.directive .endif r' :: rest).foldl part
    (bs.foldl part { n with frames := .conditional c r es (some []) :: n.frames }) = _
  rw [hb, pushAll_ifFalse]
  rfl

theorem foldl_loop {k : Option String} {v : String}
    (h : as.foldl part { n with frames := .loop k v c r [] :: n.frames } =
      pushAll { n with frames := .loop k v c r [] :: n.frames } es) :
    (.directive (.forStart k v c) r :: as ++ .directive .endfor r' :: rest).foldl part n =
      rest.foldl part (n.push (closeLoop k v c r es r')) := by
  rw [List.foldl_append]
  change (TemplatePart.directive .endfor r' :: rest).foldl part
    (as.foldl part { n with frames := .loop k v c r [] :: n.frames }) = _
  rw [h, pushAll_loop]
  rfl

end

/-- Parts that are well nested are expressions for whatever is open before them. -/
theorem foldl_part_of_nested {ps : List Piece} {ts : List Tree} (h : Nested ps ts) :
    ∀ (parts : List TemplatePart) (n : Nesting), parts.map TemplatePart.piece = ps →
      ∃ es, parts.foldl part n = n.pushAll es ∧ es.map Expr.tree = ts := by
  induction h with
  | nil =>
    intro parts n hp
    rw [List.map_eq_nil_iff.mp hp]
    exact ⟨[], rfl, rfl⟩
  | text _ ih =>
    intro parts n hp
    obtain ⟨p, parts, rfl, hpiece, hps⟩ := List.map_eq_cons_iff.mp hp
    obtain ⟨r, rfl⟩ := eq_of_piece_text hpiece
    obtain ⟨es, hes, htree⟩ := ih parts _ hps
    exact ⟨_ :: es, hes, by rw [List.map_cons, htree]; rfl⟩
  | interpolation _ ih =>
    intro parts n hp
    obtain ⟨p, parts, rfl, hpiece, hps⟩ := List.map_eq_cons_iff.mp hp
    obtain ⟨e, r, rfl, he⟩ := eq_of_piece_interpolation hpiece
    obtain ⟨es, hes, htree⟩ := ih parts _ hps
    exact ⟨e :: es, hes, by rw [List.map_cons, htree, he]⟩
  | conditional _ _ iha ih =>
    intro parts n hp
    obtain ⟨as, parts, rfl, has, hps⟩ := List.map_eq_append_iff.mp hp
    obtain ⟨p, as, rfl, hpiece, has'⟩ := List.map_eq_cons_iff.mp has
    obtain ⟨q, parts, rfl, hq, hps'⟩ := List.map_eq_cons_iff.mp hps
    obtain ⟨c, r, rfl, hc⟩ := eq_of_piece_ifStart hpiece
    obtain ⟨r', rfl⟩ := eq_of_piece_endif hq
    obtain ⟨es, hes, htree⟩ := iha as { n with frames := .conditional c r [] none :: n.frames } has'
    obtain ⟨fs, hfs, htree'⟩ := ih parts (n.push (closeConditional c r es none r')) hps'
    refine ⟨closeConditional c r es none r' :: fs, (foldl_conditional hes).trans hfs, ?_⟩
    rw [List.map_cons, htree', tree_closeConditional, htree, hc]
    rfl
  | alternative _ _ _ iha ihb ih =>
    intro parts n hp
    obtain ⟨all, parts, rfl, hall, hps⟩ := List.map_eq_append_iff.mp hp
    obtain ⟨as, bs, rfl, has, hbs⟩ := List.map_eq_append_iff.mp hall
    obtain ⟨p, as, rfl, hpiece, has'⟩ := List.map_eq_cons_iff.mp has
    obtain ⟨m, bs, rfl, hm, hbs'⟩ := List.map_eq_cons_iff.mp hbs
    obtain ⟨q, parts, rfl, hq, hps'⟩ := List.map_eq_cons_iff.mp hps
    obtain ⟨c, r, rfl, hc⟩ := eq_of_piece_ifStart hpiece
    obtain ⟨r₁, rfl⟩ := eq_of_piece_elseMark hm
    obtain ⟨r₂, rfl⟩ := eq_of_piece_endif hq
    obtain ⟨es, hes, htree⟩ := iha as { n with frames := .conditional c r [] none :: n.frames } has'
    obtain ⟨gs, hgs, htree'⟩ :=
      ihb bs { n with frames := .conditional c r es (some []) :: n.frames } hbs'
    obtain ⟨fs, hfs, htree''⟩ := ih parts (n.push (closeConditional c r es (some gs) r₂)) hps'
    refine ⟨closeConditional c r es (some gs) r₂ :: fs, (foldl_alternative hes hgs).trans hfs, ?_⟩
    rw [List.map_cons, htree'', tree_closeConditional, htree, hc, Option.getD_some, htree']
  | @loop k v _ _ _ _ _ _ _ iha ih =>
    intro parts n hp
    obtain ⟨as, parts, rfl, has, hps⟩ := List.map_eq_append_iff.mp hp
    obtain ⟨p, as, rfl, hpiece, has'⟩ := List.map_eq_cons_iff.mp has
    obtain ⟨q, parts, rfl, hq, hps'⟩ := List.map_eq_cons_iff.mp hps
    obtain ⟨c, r, rfl, hc⟩ := eq_of_piece_forStart hpiece
    obtain ⟨r', rfl⟩ := eq_of_piece_endfor hq
    obtain ⟨es, hes, htree⟩ := iha as { n with frames := .loop k v c r [] :: n.frames } has'
    obtain ⟨fs, hfs, htree'⟩ := ih parts (n.push (closeLoop k v c r es r')) hps'
    refine ⟨closeLoop k v c r es r' :: fs, (foldl_loop hes).trans hfs, ?_⟩
    rw [List.map_cons, htree', tree_closeLoop, htree, hc]

/-- Well-nested parts give their expressions and no report. -/
theorem ofParts_of_nested {parts : List TemplatePart} {ts : List Tree}
    (h : Nested (parts.map TemplatePart.piece) ts) (stop : SourceRange) :
    ∃ es, ofParts parts stop = (es, []) ∧ es.map Expr.tree = ts := by
  obtain ⟨es, hes, htree⟩ := foldl_part_of_nested h parts ⟨[], [], []⟩ rfl
  refine ⟨es, ?_, htree⟩
  unfold ofParts
  rw [hes, pushAll_outside]
  rfl

end HclSyntax.Nesting
