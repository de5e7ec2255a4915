import HclSyntax.Syntax.Walk
import HclSyntax.Template.Nesting

namespace HclSyntax

/-- Whether the step says by which key it goes. -/
def TraversalStep.Known : TraversalStep → Prop
  | .index key _ => key.isKnown
  | _ => True

/-- Whether the values that the node itself holds are known. -/
def Expr.KnownHere : Expr → Prop
  | .literal v _ => v.isKnown
  | .scopeTraversal steps _ | .relativeTraversal _ steps _ => ∀ s ∈ steps, s.Known
  | _ => True

def ExprStop.Known : ExprStop → Prop
  | .expr e => e.KnownHere
  | _ => True

/-- No unknown value anywhere in the expression. -/
def Expr.Known (e : Expr) : Prop := ∀ s ∈ e.walk, s.Known

def Stop.Whole : Stop → Prop
  | .expr s => s.Known
  | .block b => b.body.isSome
  | _ => True

/-- No unknown value in any attribute, and a body in every block, at all depths. -/
def Body.Whole (b : Body) : Prop := ∀ s ∈ b.walk, s.Whole

def Block.Whole (b : Block) : Prop := ∀ s ∈ b.walk, s.Whole

namespace Expr

theorem mem_walkAll {s : ExprStop} {es : List Expr} : s ∈ walkAll es ↔ ∃ e ∈ es, s ∈ e.walk := by
  induction es with
  | nil => simp [walkAll]
  | cons e es ih => simp [walkAll, ih]

theorem mem_walkItems {s : ExprStop} {items : List (Expr × Expr)} :
    s ∈ walkItems items ↔ ∃ i ∈ items, s ∈ i.1.walk ∨ s ∈ i.2.walk := by
  induction items with
  | nil => simp [walkItems]
  | cons i items ih =>
    obtain ⟨key, value⟩ := i
    simp [walkItems, walkItem, ih, or_assoc]

theorem mem_walkOption {s : ExprStop} {e : Option Expr} :
    s ∈ walkOption e ↔ ∃ x ∈ e, s ∈ x.walk := by
  cases e <;> simp [walkOption]

/-- The expressions that a node is made of. -/
def children : Expr → List Expr
  | literal .. | scopeTraversal .. | element .. => []
  | templateWrap inner _ | templateJoin inner _ => [inner]
  | template parts _ => parts
  | tuple items _ _ => items
  | object items _ _ => items.flatMap fun i => [i.1, i.2]
  | conditional condition ifTrue ifFalse _ => [condition, ifTrue, ifFalse]
  | binary _ lhs rhs _ => [lhs, rhs]
  | unary _ operand _ _ => [operand]
  | relativeTraversal source _ _ => [source]
  | index collection key _ _ => [collection, key]
  | splat source each _ _ _ => [source, each]
  | call _ args _ _ _ _ _ => args
  | comprehension _ _ collection key value condition _ _ _ _ =>
    collection :: key.toList ++ value :: condition.toList

theorem sizeOf_lt_of_mem_children {e x : Expr} (h : x ∈ e.children) : sizeOf x < sizeOf e := by
  have hlist {es : List Expr} (h : x ∈ es) : sizeOf x < sizeOf es := List.sizeOf_lt_of_mem h
  have hoption {o : Option Expr} (h : x ∈ o) : sizeOf x < sizeOf o := by
    obtain rfl := Option.mem_def.mp h
    simp +arith
  cases e with
  | literal | scopeTraversal | element => cases h
  | template | tuple | call =>
    have : sizeOf x < sizeOf (α := List Expr) _ := hlist h
    simp only [children, template.sizeOf_spec, tuple.sizeOf_spec, call.sizeOf_spec] at this ⊢
    omega
  | object items =>
    obtain ⟨i, hi, hx⟩ := List.mem_flatMap.mp h
    have hitem := List.sizeOf_lt_of_mem hi
    obtain ⟨key, value⟩ := i
    simp only [List.mem_cons, List.not_mem_nil, or_false] at hx
    simp only [Prod.mk.sizeOf_spec, object.sizeOf_spec] at hitem ⊢
    rcases hx with rfl | rfl <;> omega
  | comprehension =>
    simp only [children, List.cons_append, List.mem_cons, List.mem_append, Option.mem_toList] at h
    rw [comprehension.sizeOf_spec]
    rcases h with rfl | h | rfl | h
    · omega
    · have := hoption h
      omega
    · omega
    · have := hoption h
      omega
  | _ =>
    simp only [children, List.mem_cons, List.not_mem_nil, or_false] at h
    rcases h with rfl | rfl | rfl <;> simp +arith

/-- Induction over trees: every node after its children. -/
@[elab_as_elim]
theorem induction_children {P : Expr → Prop} (node : ∀ e, (∀ x ∈ e.children, P x) → P e)
    (e : Expr) : P e :=
  node e fun x hx =>
    have := sizeOf_lt_of_mem_children hx
    induction_children node x
termination_by sizeOf e

/-- A walk passes the node itself, and walks its children. -/
theorem expr_mem_walk {e n : Expr} :
    .expr n ∈ e.walk ↔ n = e ∨ ∃ x ∈ e.children, .expr n ∈ x.walk := by
  cases e with
  | object items =>
    simp only [walk, children, List.mem_cons, ExprStop.expr.injEq, mem_walkItems, List.mem_flatMap,
      List.not_mem_nil, or_false]
    refine or_congr .rfl ⟨?_, ?_⟩
    · rintro ⟨i, hi, h | h⟩
      · exact ⟨i.1, ⟨i, hi, .inl rfl⟩, h⟩
      · exact ⟨i.2, ⟨i, hi, .inr rfl⟩, h⟩
    · rintro ⟨x, ⟨i, hi, rfl | rfl⟩, h⟩
      · exact ⟨i, hi, .inl h⟩
      · exact ⟨i, hi, .inr h⟩
  | _ => simp [walk, children, mem_walkAll, mem_walkOption, or_and_right, exists_or]

theorem known_walkAll {es : List Expr} :
    (∀ s ∈ walkAll es, s.Known) ↔ ∀ e ∈ es, e.Known := by
  simp only [mem_walkAll, Known]
  exact ⟨fun h e he s hs => h s ⟨e, he, hs⟩, fun h s ⟨e, he, hs⟩ => h e he s hs⟩

theorem known_walkItems {items : List (Expr × Expr)} :
    (∀ s ∈ walkItems items, s.Known) ↔ ∀ i ∈ items, i.1.Known ∧ i.2.Known := by
  simp only [mem_walkItems, Known]
  constructor
  · intro h i hi
    exact ⟨fun s hs => h s ⟨i, hi, .inl hs⟩, fun s hs => h s ⟨i, hi, .inr hs⟩⟩
  · rintro h s ⟨i, hi, hs | hs⟩
    · exact (h i hi).1 s hs
    · exact (h i hi).2 s hs

theorem known_walkOption {e : Option Expr} :
    (∀ s ∈ walkOption e, s.Known) ↔ ∀ x ∈ e, x.Known := by
  simp only [mem_walkOption, Known]
  exact ⟨fun h x hx s hs => h s ⟨x, hx, hs⟩, fun h s ⟨x, hx, hs⟩ => h x hx s hs⟩

section
variable {e e' e'' : Expr} {r r' r'' r₃ : SourceRange}

attribute [local simp] walk ExprStop.Known KnownHere

@[simp] theorem known_literal {v : Value} : (literal v r).Known ↔ v.isKnown := by
  simp [Known]

@[simp] theorem known_element : (element r).Known := by
  simp [Known]

@[simp] theorem known_scopeTraversal {steps : Traversal} :
    (scopeTraversal steps r).Known ↔ ∀ s ∈ steps, s.Known := by
  simp [Known]

@[simp] theorem known_relativeTraversal {steps : Traversal} :
    (relativeTraversal e steps r).Known ↔ (∀ s ∈ steps, s.Known) ∧ e.Known := by
  simp [Known]

@[simp] theorem known_templateWrap : (templateWrap e r).Known ↔ e.Known := by
  simp [Known]

@[simp] theorem known_templateJoin : (templateJoin e r).Known ↔ e.Known := by
  simp [Known]

@[simp] theorem known_template {parts : List Expr} :
    (template parts r).Known ↔ ∀ p ∈ parts, p.Known := by
  rw [← known_walkAll]
  simp [Known]

@[simp] theorem known_tuple {items : List Expr} :
    (tuple items r r').Known ↔ ∀ p ∈ items, p.Known := by
  rw [← known_walkAll]
  simp [Known]

@[simp] theorem known_object {items : List (Expr × Expr)} :
    (object items r r').Known ↔ ∀ i ∈ items, i.1.Known ∧ i.2.Known := by
  rw [← known_walkItems]
  simp [Known]

@[simp] theorem known_conditional :
    (conditional e e' e'' r).Known ↔ e.Known ∧ e'.Known ∧ e''.Known := by
  simp [Known, or_imp, forall_and]

@[simp] theorem known_binary {op : BinaryOp} : (binary op e e' r).Known ↔ e.Known ∧ e'.Known := by
  simp [Known, or_imp, forall_and]

@[simp] theorem known_unary {op : UnaryOp} : (unary op e r r').Known ↔ e.Known := by
  simp [Known]

@[simp] theorem known_index : (index e e' r r').Known ↔ e.Known ∧ e'.Known := by
  simp [Known, or_imp, forall_and]

@[simp] theorem known_splat : (splat e e' r r' r'').Known ↔ e.Known ∧ e'.Known := by
  simp [Known, or_imp, forall_and]

@[simp] theorem known_call {name : String} {args : List Expr} {expand : Bool} :
    (call name args expand r r' r'' r₃).Known ↔ ∀ a ∈ args, a.Known := by
  rw [← known_walkAll]
  simp [Known]

@[simp] theorem known_comprehension {k : Option String} {v : String} {key cond : Option Expr}
    {group : Bool} : (comprehension k v e key e' cond group r r' r'').Known ↔
      e.Known ∧ (∀ x ∈ key, x.Known) ∧ e'.Known ∧ ∀ x ∈ cond, x.Known := by
  rw [← known_walkOption, ← known_walkOption]
  simp [Known, or_imp, forall_and]

end

/-- One step further, a known expression stays known if the step is. -/
theorem Known.step {e : Expr} {s : TraversalStep} (he : e.Known) (hs : s.Known) :
    (e.step s).Known := by
  unfold Expr.step
  split
  · simp only [known_scopeTraversal, List.mem_append, List.mem_singleton] at he ⊢
    rintro t (ht | rfl)
    · exact he t ht
    · exact hs
  · simp only [known_relativeTraversal, List.mem_append, List.mem_singleton] at he ⊢
    refine ⟨?_, he.2⟩
    rintro t (ht | rfl)
    · exact he.1 t ht
    · exact hs
  · simpa using ⟨hs, he⟩

theorem Known.staticKey? {e : Expr} {v : Value} (he : e.Known) (hv : e.staticKey? = some v) :
    v.isKnown := by
  unfold Expr.staticKey? at hv
  split at hv
  · obtain rfl := Option.some.inj hv
    simpa using he
  · obtain rfl := Option.some.inj hv
    rfl
  · cases hv

end Expr

theorem mem_walkBlocks {s : Stop} {bs : List Block} : s ∈ walkBlocks bs ↔ ∃ b ∈ bs, s ∈ b.walk := by
  induction bs with
  | nil => simp [walkBlocks]
  | cons b bs ih => simp [walkBlocks, ih]

theorem Body.mem_sortedAttributes {b : Body} {a : Attribute} :
    a ∈ b.sortedAttributes ↔ a ∈ b.attributes := (List.mergeSort_perm _ _).mem_iff

theorem Body.mem_walk {s : Stop} {b : Body} : s ∈ b.walk ↔
    s = .body b ∨ (∃ a ∈ b.attributes, s ∈ a.walk) ∨ ∃ x ∈ b.blocks, s ∈ x.walk := by
  obtain ⟨attributes, blocks, range, endRange⟩ := b
  simp [Body.walk, mem_walkBlocks, Body.mem_sortedAttributes]

theorem Block.mem_walk {s : Stop} {x : Block} :
    s ∈ x.walk ↔ s = .block x ∨ ∃ y ∈ x.body, s ∈ y.walk := by
  obtain ⟨type, labels, labelRanges, body, typeRange, openRange, closeRange⟩ := x
  cases body <;> simp [Block.walk, walkBody]

theorem Body.mem_allAttributes_iff_walk {b : Body} {a : Attribute} :
    a ∈ b.allAttributes ↔ .attr a ∈ b.walk := by
  rw [Body.allAttributes, List.mem_filterMap]
  constructor
  · rintro ⟨s, hs, ha⟩
    split at ha
    · exact Option.some.inj ha ▸ hs
    · cases ha
  · exact fun h => ⟨_, h, rfl⟩

/-- The attributes of a body are its own and those of the bodies in it. -/
theorem Body.mem_allAttributes {b : Body} {a : Attribute} : a ∈ b.allAttributes ↔
    a ∈ b.attributes ∨ ∃ x ∈ b.blocks, ∃ y ∈ x.body, a ∈ y.allAttributes := by
  rw [mem_allAttributes_iff_walk, mem_walk]
  simp [mem_allAttributes_iff_walk, Block.mem_walk, Attribute.walk]

theorem Body.whole_iff {b : Body} :
    b.Whole ↔ (∀ a ∈ b.attributes, a.expr.Known) ∧ ∀ x ∈ b.blocks, x.Whole := by
  obtain ⟨attributes, blocks, range, endRange⟩ := b
  simp only [Body.Whole, Body.walk, List.mem_cons, List.mem_append, List.mem_flatMap,
    mem_walkBlocks, Body.mem_sortedAttributes, Attribute.walk, List.mem_map]
  constructor
  · intro h
    refine ⟨fun a ha s hs => h (.expr s) (.inl (.inr ⟨a, ha, .inr ⟨s, hs, rfl⟩⟩)), ?_⟩
    exact fun x hx s hs => h s (.inr ⟨x, hx, hs⟩)
  · rintro ⟨ha, hb⟩ s ((rfl | ⟨a, hm, rfl | ⟨t, ht, rfl⟩⟩) | ⟨x, hx, hs⟩)
    · trivial
    · trivial
    · exact ha a hm t ht
    · exact hb x hx s hs

theorem Block.whole_iff {b : Block} : b.Whole ↔ ∃ x, b.body = some x ∧ x.Whole := by
  obtain ⟨type, labels, labelRanges, body, typeRange, openRange, closeRange⟩ := b
  cases body <;> simp [Block.Whole, Block.walk, walkBody, Stop.Whole, Body.Whole]

end HclSyntax
