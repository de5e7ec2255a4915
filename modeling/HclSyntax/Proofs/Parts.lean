import HclSyntax.Parser.Template

namespace HclSyntax

/-- `P` holds of what is interpolated, and `Q` of the expression that a directive begins with. -/
def TemplatePart.Carries (P Q : Expr → Prop) : TemplatePart → Prop
  | .text .. => True
  | .interpolation e _ => P e
  | .directive (.ifStart e) _ | .directive (.forStart _ _ e) _ => Q e
  | .directive .. => True

/-- `P` holds of everything in an open directive, and `Q` of the expression that it begins with. -/
def Frame.Carries (P Q : Expr → Prop) : Frame → Prop
  | .conditional c _ ifTrue ifFalse =>
    Q c ∧ (∀ e ∈ ifTrue, P e) ∧ ∀ es ∈ ifFalse, ∀ e ∈ es, P e
  | .loop _ _ collection _ body => Q collection ∧ ∀ e ∈ body, P e

namespace Nesting

structure Carries (P Q : Expr → Prop) (n : Nesting) : Prop where
  frames : ∀ f ∈ n.frames, f.Carries P Q
  exprs : ∀ e ∈ n.exprs, P e

/-- Properties that hold of texts, and of a directive if they hold of all that is in it. -/
structure Keeps (P Q : Expr → Prop) : Prop where
  literal (v : Value) (r : SourceRange) : P (.literal v r)
  conditional {c : Expr} {ifTrue : List Expr} {ifFalse : Option (List Expr)} (hc : Q c)
    (ht : ∀ e ∈ ifTrue, P e) (hf : ∀ e ∈ ifFalse.getD [], P e) (start stop : SourceRange) :
    P (closeConditional c start ifTrue ifFalse stop)
  loop {k : Option String} {v : String} {collection : Expr} {body : List Expr} (hc : Q collection)
    (hb : ∀ e ∈ body, P e) (start stop : SourceRange) :
    P (closeLoop k v collection start body stop)

variable {P Q : Expr → Prop} {n : Nesting} {e : Expr} {r : SourceRange}

theorem Carries.push (hn : n.Carries P Q) (he : P e) : (n.push e).Carries P Q := by
  obtain ⟨hf, hx⟩ := hn
  unfold Nesting.push
  split <;> constructor <;> simp_all [Frame.Carries, or_imp, forall_and]

/-- The innermost directive is given up. -/
theorem Carries.drop {f : Frame} {frames : List Frame} (hn : n.Carries P Q)
    (h : n.frames = f :: frames) : f.Carries P Q ∧ Carries P Q { n with frames := frames } := by
  obtain ⟨hf, hfs⟩ := List.forall_mem_cons.mp (h ▸ hn.frames)
  exact ⟨hf, hfs, hn.exprs⟩

namespace Keeps

variable (hk : Keeps P Q)
include hk

theorem fail (hn : n.Carries P Q) (p : Problem) : (n.fail p r).Carries P Q :=
  Carries.push ⟨hn.frames, hn.exprs⟩ (hk.literal _ _)

theorem directive {d : Directive} (hn : n.Carries P Q)
    (hd : (TemplatePart.directive d r).Carries P Q) : (n.directive d r).Carries P Q := by
  unfold Nesting.directive
  split
  case h_1 condition frames =>
    exact ⟨List.forall_mem_cons.mpr ⟨⟨hd, by simp, by simp⟩, hn.frames⟩, hn.exprs⟩
  case h_2 k v collection frames =>
    exact ⟨List.forall_mem_cons.mpr ⟨⟨hd, by simp⟩, hn.frames⟩, hn.exprs⟩
  case h_3 c start ifTrue frames hframes =>
    obtain ⟨⟨hc, ht, -⟩, hrest⟩ := hn.drop hframes
    exact ⟨List.forall_mem_cons.mpr ⟨⟨hc, ht, by simp⟩, hrest.frames⟩, hn.exprs⟩
  case h_7 c start ifTrue ifFalse frames hframes =>
    obtain ⟨⟨hc, ht, hf⟩, hrest⟩ := hn.drop hframes
    have helse : ∀ e ∈ ifFalse.getD [], P e := by
      cases ifFalse with
      | none => simp
      | some es => exact hf es rfl
    exact hrest.push (hk.conditional hc ht helse start r)
  case h_10 k v c start body frames hframes =>
    obtain ⟨⟨hc, hb⟩, hrest⟩ := hn.drop hframes
    exact hrest.push (hk.loop hc hb start r)
  -- a directive that fits nothing that is open
  case h_6 | h_9 | h_12 => exact hk.fail hn _
  all_goals
    rename_i hframes
    exact hk.fail (hn.drop hframes).2 _

theorem part {p : TemplatePart} (hn : n.Carries P Q) (hp : p.Carries P Q) :
    (n.part p).Carries P Q := by
  cases p with
  | text value range => exact hn.push (hk.literal _ _)
  | interpolation e range => exact hn.push hp
  | directive d range => exact hk.directive hn hp

theorem ofParts {parts : List TemplatePart} (hp : ∀ p ∈ parts, p.Carries P Q) (stop : SourceRange) :
    ∀ e ∈ (Nesting.ofParts parts stop).1, P e := by
  have hfold (n : Nesting) (hn : n.Carries P Q) : (parts.foldl Nesting.part n).Carries P Q := by
    induction parts generalizing n with
    | nil => exact hn
    | cons p parts ih =>
      obtain ⟨h, hs⟩ := List.forall_mem_cons.mp hp
      exact ih hs _ (hk.part hn h)
  have hn := hfold ⟨[], [], []⟩ ⟨by simp, by simp⟩
  unfold Nesting.ofParts finish
  split
  · exact hn.exprs
  · simpa [or_imp, forall_and] using ⟨hn.exprs, hk.literal .placeholder stop⟩

end Keeps

end Nesting

/-- What holds of all texts holds of the one that a marker strips. -/
theorem Parser.TemplateParts.forall_before {P : TemplatePart → Prop} (ht : ∀ v r, P (.text v r))
    {a : Parser.TemplateParts} (h : ∀ p ∈ a.parts, P p) (opening : Token) :
    ∀ p ∈ a.before opening, P p := by
  unfold TemplateParts.before TemplatePart.trimLast
  repeat' split
  · simp only [List.mem_append, List.mem_singleton]
    rintro p (hp | rfl)
    · exact h p (List.dropLast_subset _ hp)
    · exact ht _ _
  · exact h
  · exact h

end HclSyntax
