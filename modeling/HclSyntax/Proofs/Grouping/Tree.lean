import HclSyntax.Proofs.Parts
import HclSyntax.Proofs.Print.Tree
import HclSyntax.Proofs.Range.Tree

namespace HclSyntax

/-- The levels of the operators are their places in the table. -/
theorem BinaryOp.level_of_lookup {k : Nat} {level : Level} {levels : List Level} {kind : TokenKind}
    {op : BinaryOp} (hk : BinaryOp.levels.drop k = level :: levels)
    (h : level.lookup kind = some op) : op.level = k := by
  -- the table as a whole says it of each entry
  have htable : ∀ p ∈ BinaryOp.levels.zipIdx, ∀ x ∈ p.1, x.2.level = p.2 := by decide
  have hplace : BinaryOp.levels[k]? = some level := by
    rw [← Nat.add_zero k, ← List.getElem?_drop, hk]
    rfl
  obtain ⟨before, behind, rfl, -⟩ := List.lookup_eq_some_iff.mp h
  exact htable (_, k) (List.mem_zipIdx_iff_getElem?.mpr hplace) (kind, op) (by simp)

namespace Expr

/-- Whether the expression is no conditional, and holds together at least as tightly as the
operators of level `k`. -/
def Binds (k : Nat) : Expr → Prop
  | conditional .. => False
  | binary op .. => k ≤ op.level
  | _ => True

/-- Whether the expression is one operand: no conditional, and nothing with a binary operator. -/
def IsOperand : Expr → Prop
  | conditional .. | binary .. => False
  | _ => True

/-- Whether the operands of the node bind as tightly as its operator asks for. Operators of a level
group to the left. -/
def GroupedHere : Expr → Prop
  | conditional condition .. => condition.Binds 0
  | binary op lhs rhs _ => lhs.Binds op.level ∧ rhs.Binds (op.level + 1)
  | unary _ e .. | relativeTraversal e .. | index e .. | splat e .. => e.IsOperand
  | _ => True

def isTemplate : Expr → Bool
  | template .. => true
  | _ => false

/-- Whether the expression is what an `if` directive of a template stands for. -/
def IsDirective (e : Expr) : Prop :=
  ∃ c start ifTrue ifFalse stop, e = Nesting.closeConditional c start ifTrue ifFalse stop

/-- The node is grouped, and so is every node inside of it. If there are directives, those among the
parts of a template may have any condition. -/
def Grouped (directives : Prop) (e : Expr) : Prop :=
  e.GroupedHere ∧ ∀ n, .expr n ∈ e.walk → ∀ x ∈ n.children,
    x.GroupedHere ∨ directives ∧ n.isTemplate ∧ x.IsDirective

/-- What a part of a template may be. -/
def GroupedPart (directives : Prop) (e : Expr) : Prop :=
  e.Grouped directives ∨ directives ∧ e.IsDirective ∧ ∀ x ∈ e.children, x.Grouped directives

/-- An operand of the operators of level `k`. -/
structure Tight (directives : Prop) (k : Nat) (e : Expr) : Prop where
  grouped : e.Grouped directives
  binds : e.Binds k

variable {D : Prop} {e n : Expr} {j k : Nat}

theorem Binds.mono (h : e.Binds k) (hjk : j ≤ k) : e.Binds j := by
  unfold Binds at *
  split
  · exact h
  · exact Nat.le_trans hjk h
  · trivial

/-- No operator is on a level behind the last one. -/
theorem Binds.isOperand (h : e.Binds BinaryOp.levels.length) : e.IsOperand := by
  cases e with
  | conditional => exact h
  | binary op =>
    have hle : 6 ≤ op.level := h
    cases op <;> contradiction
  | _ => trivial

theorem Grouped.of_children (he : e.GroupedHere) (h : ∀ x ∈ e.children, x.Grouped D) :
    e.Grouped D := by
  refine ⟨he, fun n hn x hx => ?_⟩
  obtain rfl | ⟨y, hy, hn⟩ := expr_mem_walk.mp hn
  · exact .inl (h x hx).1
  · exact (h y hy).2 n hn x hx

theorem Grouped.children (h : e.Grouped D) (he : e.isTemplate = false) :
    ∀ x ∈ e.children, x.Grouped D := by
  intro x hx
  refine ⟨?_, fun n hn => h.2 n (expr_mem_walk.mpr (.inr ⟨x, hx, hn⟩))⟩
  refine (h.2 e (expr_mem_walk.mpr (.inl rfl)) x hx).resolve_right ?_
  simp [he]

theorem grouped_template {parts : List Expr} {r : SourceRange} (h : ∀ p ∈ parts, p.GroupedPart D) :
    (template parts r).Grouped D := by
  refine ⟨trivial, fun n hn x hx => ?_⟩
  obtain rfl | ⟨p, hp, hn⟩ := expr_mem_walk.mp hn
  · exact (h x hx).imp (·.1) fun hd => ⟨hd.1, rfl, hd.2.1⟩
  -- inside of a directive nothing is exempt, only the directive itself was
  obtain hg | ⟨-, -, hg⟩ := h p hp
  · exact hg.2 n hn x hx
  obtain rfl | ⟨y, hy, hn⟩ := expr_mem_walk.mp hn
  · exact .inl (hg x hx).1
  · exact (hg y hy).2 n hn x hx

theorem grouped_literal {v : Value} {r : SourceRange} : (literal v r).Grouped D :=
  .of_children trivial (by simp [children])

theorem tight_literal {v : Value} {r : SourceRange} : (literal v r).Tight D k :=
  ⟨grouped_literal, trivial⟩

theorem Tight.mono (h : e.Tight D k) (hjk : j ≤ k) : e.Tight D j := ⟨h.grouped, h.binds.mono hjk⟩

theorem Tight.isOperand (h : e.Tight D BinaryOp.levels.length) : e.IsOperand := h.binds.isOperand

theorem Tight.step (h : e.Tight D BinaryOp.levels.length) (s : TraversalStep) :
    (e.step s).Tight D BinaryOp.levels.length := by
  unfold Expr.step
  split
  · exact ⟨.of_children trivial (by simp [Expr.children]), trivial⟩
  · exact ⟨.of_children h.grouped.1 (h.grouped.children rfl), trivial⟩
  · exact ⟨.of_children h.isOperand (by simpa [Expr.children] using h.grouped), trivial⟩

end Expr

/-- The expression that a part holds is grouped. -/
def TemplatePart.Grouped (D : Prop) : TemplatePart → Prop
  | .text .. => True
  | .interpolation e _ => e.Grouped D
  | .directive (.ifStart e) _ | .directive (.forStart _ _ e) _ => D ∧ e.Grouped D
  | .directive .. => D

theorem TemplatePart.Grouped.carries {D : Prop} {p : TemplatePart} (h : p.Grouped D) :
    p.Carries (Expr.GroupedPart D) fun e => D ∧ e.Grouped D := by
  cases p with
  | text => trivial
  | interpolation e r => exact .inl h
  | directive d r => cases d <;> trivial

namespace Nesting

variable {D : Prop} {exprs : List Expr} {r : SourceRange}

theorem grouped_branch (h : ∀ e ∈ exprs, e.GroupedPart D) : (branch exprs r).Grouped D := by
  unfold branch
  split
  · exact Expr.grouped_literal
  · exact Expr.grouped_template h

theorem keeps_grouped : Keeps (Expr.GroupedPart D) fun e => D ∧ e.Grouped D where
  literal _ _ := .inl Expr.grouped_literal
  conditional {c ifTrue ifFalse} hc ht hf start stop := by
    refine .inr ⟨hc.1, ⟨c, start, ifTrue, ifFalse, stop, rfl⟩, ?_⟩
    simpa [closeConditional, Expr.children] using ⟨hc.2, grouped_branch ht, grouped_branch hf⟩
  loop {k v collection body} hc hb start stop := by
    have hloop : (Expr.comprehension k v collection none (branch body start.endPoint) none false
        start stop (.between start stop)).Grouped D :=
      .of_children trivial (by simpa [Expr.children] using ⟨hc.2, grouped_branch hb⟩)
    exact .inl (.of_children trivial (by simpa [closeLoop, Expr.children] using hloop))

end Nesting

end HclSyntax
