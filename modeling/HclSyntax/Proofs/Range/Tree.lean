import HclSyntax.Proofs.Known.Tree

namespace HclSyntax

namespace SourceRange

def lo (r : SourceRange) : Nat := r.start.byte.toNat

def hi (r : SourceRange) : Nat := r.stop.byte.toNat

variable {r s : SourceRange}

theorem contains_iff : r.contains s ↔ r.lo ≤ s.lo ∧ s.hi ≤ r.hi := by
  simp [contains, lo, hi, UInt32.le_iff_toNat_le]

@[simp] theorem lo_between : (between r s).lo = min r.lo s.lo := by
  simp only [between, lo, UInt32.le_iff_toNat_le]
  split <;> omega

@[simp] theorem hi_between : (between r s).hi = max r.hi s.hi := by
  simp only [between, hi, UInt32.le_iff_toNat_le]
  split <;> omega

@[simp] theorem lo_point_start {filename : String} : (point filename r.start).lo = r.lo := rfl

@[simp] theorem hi_point_start {filename : String} : (point filename r.start).hi = r.lo := rfl

end SourceRange

namespace Expr

/-- The range of every node contains those of its children. -/
inductive Nests : Expr → Prop
  | mk {e : Expr} (contains : ∀ x ∈ e.children, e.range.contains x.range)
    (inner : ∀ x ∈ e.children, Nests x) : Nests e

/-- The ranges of the expression nest, and lie between two places. -/
structure Inside (lo hi : Nat) (e : Expr) : Prop where
  nests : e.Nests
  from_le : lo ≤ e.range.lo
  le_to : e.range.hi ≤ hi

/-- The range of the expression lies between two places in this order. -/
structure Spans (lo hi : Nat) (e : Expr) : Prop extends Inside lo hi e where
  forward : e.range.lo ≤ e.range.hi

variable {e : Expr} {lo lo' hi hi' : Nat}

theorem Inside.mono (h : e.Inside lo hi) (hl : lo' ≤ lo) (hh : hi ≤ hi') : e.Inside lo' hi' :=
  ⟨h.nests, Nat.le_trans hl h.from_le, Nat.le_trans h.le_to hh⟩

theorem Spans.mono (h : e.Spans lo hi) (hl : lo' ≤ lo) (hh : hi ≤ hi') : e.Spans lo' hi' :=
  ⟨h.toInside.mono hl hh, h.forward⟩

theorem nests_of_children (h : ∀ x ∈ e.children, x.Inside e.range.lo e.range.hi) : e.Nests :=
  .mk (fun x hx => SourceRange.contains_iff.mpr ⟨(h x hx).from_le, (h x hx).le_to⟩)
    fun x hx => (h x hx).nests

theorem Nests.inside (h : e.Nests) : ∀ x ∈ e.children, x.Inside e.range.lo e.range.hi := by
  obtain ⟨hcontains, hinner⟩ := h
  intro x hx
  obtain ⟨hl, hh⟩ := SourceRange.contains_iff.mp (hcontains x hx)
  exact ⟨hinner x hx, hl, hh⟩

/-- A step more makes the range wider, whether a path is there or begins. -/
theorem Nests.step (h : e.Nests) (s : TraversalStep) : (e.step s).Nests := by
  have hwide : ∀ x : Expr, x.Inside e.range.lo e.range.hi →
      x.Inside (SourceRange.between e.range s.range).lo (SourceRange.between e.range s.range).hi :=
    fun x hx => hx.mono (by rw [SourceRange.lo_between]; omega)
      (by rw [SourceRange.hi_between]; omega)
  unfold Expr.step
  split
  · exact nests_of_children (by simp [children])
  · refine nests_of_children fun x hx => hwide x (h.inside x hx)
  · refine nests_of_children fun x hx => hwide x ?_
    obtain rfl := List.mem_singleton.mp hx
    exact ⟨h, Nat.le_refl _, Nat.le_refl _⟩

@[simp] theorem range_step (s : TraversalStep) :
    (e.step s).range = .between e.range s.range := by
  unfold Expr.step
  split <;> rfl

end Expr

/-- The range of an attribute contains those of its parts. An expression that has a placeholder may
reach further, since a placeholder stands where the next token does. -/
structure Attribute.Nests (a : Attribute) : Prop where
  name : a.range.contains a.nameRange
  equals : a.range.contains a.equalsRange
  expr : a.expr.Nests
  whole : a.expr.Known → a.range.contains a.expr.range

/-- What the range of a block contains besides its body. -/
structure Block.Holds (b : Block) : Prop where
  labels : ∀ r ∈ b.labelRanges, b.range.contains r
  opening : b.range.contains b.openRange
  closing : b.range.contains b.closeRange

/-- The ranges of the body contain those of its items, and so on. -/
inductive Body.Nests : Body → Prop
  | mk {b : Body} (attributes : ∀ a ∈ b.attributes, a.Nests ∧ b.range.contains a.range)
    (blocks : ∀ x ∈ b.blocks, b.range.contains x.range)
    (holds : ∀ x ∈ b.blocks, ∀ y ∈ x.body, x.Holds ∧ x.range.contains y.range)
    (inner : ∀ x ∈ b.blocks, ∀ y ∈ x.body, Body.Nests y) : Body.Nests b

end HclSyntax
