import HclSyntax.Parser.Collection
import HclSyntax.Proofs.Known.Tree
import HclSyntax.Proofs.Parts

namespace HclSyntax

/-- Whether the step is the variable that a path begins at. -/
def TraversalStep.isRoot : TraversalStep → Bool
  | .root .. => true
  | _ => false

/-- Steps that go on from a value. -/
def Traversal.Relative (steps : Traversal) : Prop :=
  steps ≠ [] ∧ ∀ s ∈ steps, s.isRoot = false

/-- Steps of which the first one is a variable, and no other. -/
def Traversal.Rooted (steps : Traversal) : Prop :=
  ∃ first others, steps = first :: others ∧ first.isRoot = true ∧ ∀ s ∈ others, s.isRoot = false

namespace Expr

/-- Whether further steps are gathered in the expression itself. -/
def isPath : Expr → Bool
  | scopeTraversal .. | relativeTraversal .. => true
  | _ => false

/-- A key that is a step of a path, and no index. -/
inductive IsConstant : Expr → Prop
  | literal (v : Value) (r : SourceRange) : IsConstant (literal v r)
  | string (s : String) (r r' : SourceRange) : IsConstant (template [literal (.string s) r] r')

/-- An expression in normal form. With `element` it is what a splat takes of its element: then the
chain of its suffixes begins at the element, and otherwise there is no element outside of splats. -/
inductive Normal : (element : Bool) → Expr → Prop
  | literal {v r} : Normal false (literal v r)
  | templateWrap {inner r} (h : Normal false inner) : Normal false (templateWrap inner r)
  | template {parts r} (hne : parts ≠ []) (h : ∀ p ∈ parts, Normal false p) :
    Normal false (template parts r)
  /-- The loop of a template has no key, no condition and no groups. -/
  | templateJoin {k v collection value ro rc r r'} (hc : Normal false collection)
    (hv : Normal false value) :
    Normal false (templateJoin (comprehension k v collection none value none false ro rc r) r')
  | tuple {items ro r} (h : ∀ i ∈ items, Normal false i) : Normal false (tuple items ro r)
  | object {items ro r} (hk : ∀ i ∈ items, Normal false i.1) (hv : ∀ i ∈ items, Normal false i.2) :
    Normal false (object items ro r)
  | conditional {c t f r} (hc : Normal false c) (ht : Normal false t) (hf : Normal false f) :
    Normal false (conditional c t f r)
  | binary {op lhs rhs r} (hl : Normal false lhs) (hr : Normal false rhs) :
    Normal false (binary op lhs rhs r)
  | unary {op operand rs r} (h : Normal false operand) : Normal false (unary op operand rs r)
  | scopeTraversal {steps r} (h : Traversal.Rooted steps) : Normal false (scopeTraversal steps r)
  | relativeTraversal {element source steps r} (h : Traversal.Relative steps)
    (hp : source.isPath = false) (hs : Normal element source) :
    Normal element (relativeTraversal source steps r)
  | index {element collection key ro r} (hc : Normal element collection) (hk : Normal false key)
    (hn : ¬key.IsConstant) : Normal element (index collection key ro r)
  | splat {element source each ri rm r} (hs : Normal element source) (he : Normal true each) :
    Normal element (splat source each ri rm r)
  | element {r} : Normal true (element r)
  | call {name args expand rn ro rc r} (h : ∀ a ∈ args, Normal false a) :
    Normal false (call name args expand rn ro rc r)
  | comprehension {k v collection key value condition group ro rc r}
    (hc : Normal false collection) (hk : ∀ e ∈ key, Normal false e) (hv : Normal false value)
    (hf : ∀ e ∈ condition, Normal false e) :
    Normal false (comprehension k v collection key value condition group ro rc r)

theorem normal_placeholder (r : SourceRange) : Normal false (placeholder r) := .literal

theorem not_isConstant_of_staticKey? {key : Expr} (h : key.staticKey? = none) :
    ¬key.IsConstant := by
  rintro (_ | _) <;> cases h

/-- A step more is gathered in a path, or begins one. -/
theorem Normal.step {element : Bool} {e : Expr} {s : TraversalStep} (h : Normal element e)
    (hs : s.isRoot = false) : Normal element (e.step s) := by
  have hone : Traversal.Relative [s] := ⟨List.cons_ne_nil _ _, by simpa using hs⟩
  have h' := h
  cases h with
  | scopeTraversal hr =>
    obtain ⟨first, others, rfl, hfirst, hothers⟩ := hr
    refine .scopeTraversal ⟨first, others ++ [s], rfl, hfirst, ?_⟩
    simpa [or_imp, forall_and] using ⟨hothers, hs⟩
  | relativeTraversal hr hp hsource =>
    refine .relativeTraversal ⟨by simp, ?_⟩ hp hsource
    simpa [or_imp, forall_and] using ⟨hr.2, hs⟩
  | _ => exact .relativeTraversal hone rfl h'

theorem normal_objectKey {key : Expr} {start : Token} (h : Normal false key) :
    Normal false (Parser.objectKey key start) := by
  unfold Parser.objectKey
  repeat' split
  all_goals first | exact .literal | exact h

end Expr

def ExprStop.isElement : ExprStop → Bool
  | .expr (.element _) => true
  | _ => false

def ExprStop.isSplat : ExprStop → Bool
  | .expr (.splat ..) => true
  | _ => false

/-- As many elements as splats, and `n` more. -/
def Paired (walk : List ExprStop) (n : Nat) : Prop :=
  walk.countP ExprStop.isElement = walk.countP ExprStop.isSplat + n

namespace Paired

variable {s : ExprStop} {l l' : List ExprStop} {m n : Nat}

theorem walkAll {es : List Expr} (h : ∀ e ∈ es, Paired e.walk 0) : Paired (walkAll es) 0 := by
  induction es with
  | nil => rfl
  | cons e es ih =>
    obtain ⟨he, hes⟩ := List.forall_mem_cons.mp h
    have := ih hes
    simp only [Paired, HclSyntax.walkAll, List.countP_append] at *
    omega

theorem walkItems {items : List (Expr × Expr)} (hk : ∀ i ∈ items, Paired i.1.walk 0)
    (hv : ∀ i ∈ items, Paired i.2.walk 0) : Paired (walkItems items) 0 := by
  induction items with
  | nil => rfl
  | cons i items ih =>
    obtain ⟨hk, hks⟩ := List.forall_mem_cons.mp hk
    obtain ⟨hv, hvs⟩ := List.forall_mem_cons.mp hv
    have := ih hks hvs
    obtain ⟨key, value⟩ := i
    simp only [Paired, HclSyntax.walkItems, walkItem, List.countP_append] at *
    omega

theorem walkOption {e : Option Expr} (h : ∀ x ∈ e, Paired x.walk 0) : Paired (walkOption e) 0 := by
  cases e with
  | none => rfl
  | some e => exact h e rfl

end Paired

/-- A splat has its element once in what it takes of it. -/
theorem Expr.Normal.paired {element : Bool} {e : Expr} (h : Normal element e) :
    Paired e.walk element.toNat := by
  induction h with
  | template hne h ih | tuple h ih | call h ih =>
    simpa [Paired, walk, ExprStop.isElement, ExprStop.isSplat] using Paired.walkAll ih
  | object hk hv ihk ihv =>
    simpa [Paired, walk, ExprStop.isElement, ExprStop.isSplat] using Paired.walkItems ihk ihv
  | comprehension hc hk hv hf ihc ihk ihv ihf =>
    have hkey := Paired.walkOption ihk
    have hcondition := Paired.walkOption ihf
    simp only [Paired, Bool.toNat_false, Nat.add_zero] at ihc ihv hkey hcondition
    simp [Paired, walk, ExprStop.isElement, ExprStop.isSplat, *]
  | splat hs he ihs ihe =>
    simp only [Paired, Bool.toNat_true] at ihs ihe
    simp [Paired, walk, List.countP_cons, ExprStop.isElement, ExprStop.isSplat, *]
    omega
  | _ =>
    simp only [Paired, Bool.toNat_false, Bool.toNat_true] at *
    simp [walk, walkOption, ExprStop.isElement, ExprStop.isSplat, *]
    try omega

namespace Expr

/-- No element stands outside of splats, and what a splat takes of its element has it once: besides
the elements of the splats in there, one more. -/
def ElementsPaired (e : Expr) : Prop :=
  Paired e.walk 0 ∧ ∀ source each ri rm r, .expr (splat source each ri rm r) ∈ e.walk →
    Paired each.walk 1

theorem Normal.children {element : Bool} {e : Expr} (h : Normal element e) :
    ∀ x ∈ e.children, ∃ element, Normal element x := by
  intro x hx
  cases h with
  | literal | scopeTraversal | element => cases hx
  | template hne h | tuple h | call h => exact ⟨false, h x hx⟩
  | object hk hv =>
    obtain ⟨i, hi, hx⟩ := List.mem_flatMap.mp hx
    simp only [List.mem_cons, List.not_mem_nil, or_false] at hx
    rcases hx with rfl | rfl
    · exact ⟨false, hk i hi⟩
    · exact ⟨false, hv i hi⟩
  | comprehension hc hk hv hf =>
    simp only [Expr.children, List.cons_append, List.mem_cons, List.mem_append,
      Option.mem_toList] at hx
    rcases hx with rfl | hx | rfl | hx
    · exact ⟨false, hc⟩
    · exact ⟨false, hk x hx⟩
    · exact ⟨false, hv⟩
    · exact ⟨false, hf x hx⟩
  | templateJoin hc hv =>
    obtain rfl := List.mem_singleton.mp hx
    exact ⟨false, .comprehension hc (by simp) hv (by simp)⟩
  | _ =>
    simp only [Expr.children, List.mem_cons, List.not_mem_nil, or_false] at hx
    rcases hx with rfl | rfl | rfl <;> exact ⟨_, ‹_›⟩

/-- Every node of a tree in normal form is in normal form. -/
theorem Normal.of_mem_walk {element : Bool} {e n : Expr} (h : Normal element e)
    (hn : .expr n ∈ e.walk) : ∃ element, Normal element n := by
  induction e using induction_children generalizing element with
  | node e ih =>
    obtain rfl | ⟨x, hx, hn⟩ := expr_mem_walk.mp hn
    · exact ⟨element, h⟩
    · obtain ⟨element, hchild⟩ := h.children x hx
      exact ih x hx hchild hn

theorem Normal.elementsPaired {e : Expr} (h : Normal false e) : e.ElementsPaired := by
  refine ⟨h.paired, fun source each ri rm r hs => ?_⟩
  obtain ⟨element, hsplat⟩ := h.of_mem_walk hs
  cases hsplat with
  | splat hsource heach => exact heach.paired

end Expr

/-- The expression that a part holds is in normal form. -/
def TemplatePart.Normal : TemplatePart → Prop
  | .text .. => True
  | .interpolation e _ => Expr.Normal false e
  | .directive (.ifStart e) _ | .directive (.forStart _ _ e) _ => Expr.Normal false e
  | .directive .. => True

theorem TemplatePart.Normal.carries {p : TemplatePart} (h : p.Normal) :
    p.Carries (Expr.Normal false) (Expr.Normal false) := by
  cases p with
  | text => trivial
  | interpolation e r => exact h
  | directive d r => cases d <;> trivial

namespace Nesting

variable {r : SourceRange}

theorem normal_branch {exprs : List Expr} (h : ∀ e ∈ exprs, Expr.Normal false e) :
    Expr.Normal false (branch exprs r) := by
  unfold branch
  split
  · exact .literal
  · exact .template (List.cons_ne_nil _ _) h

theorem keeps_normal : Keeps (Expr.Normal false) (Expr.Normal false) where
  literal _ _ := .literal
  conditional hc ht hf _ _ := .conditional hc (normal_branch ht) (normal_branch hf)
  loop hc hb _ _ := .templateJoin hc (normal_branch hb)

/-- A directive is open, or there is an expression. -/
def Begun (n : Nesting) : Prop := n.frames ≠ [] ∨ n.exprs ≠ []

theorem begun_push (n : Nesting) (e : Expr) : (n.push e).Begun := by
  unfold push Begun
  split <;> simp

theorem begun_part (n : Nesting) (p : TemplatePart) : (n.part p).Begun := by
  cases p with
  | text value range => exact begun_push _ _
  | interpolation e range => exact begun_push _ _
  | directive d range =>
    change (n.directive d range).Begun
    unfold directive
    split
    case h_1 | h_2 | h_3 => exact .inl (List.cons_ne_nil _ _)
    all_goals exact begun_push _ _

theorem ofParts_ne_nil {parts : List TemplatePart} {stop : SourceRange} (h : parts ≠ []) :
    (ofParts parts stop).1 ≠ [] := by
  have hbegun : (parts.foldl Nesting.part ⟨[], [], []⟩).Begun := by
    rw [← List.dropLast_concat_getLast h, List.foldl_append]
    exact begun_part _ _
  unfold ofParts finish
  split
  · rename_i hf
    exact hbegun.resolve_left fun hne => hne (List.isEmpty_iff.mp hf)
  · simp

end Nesting

end HclSyntax
