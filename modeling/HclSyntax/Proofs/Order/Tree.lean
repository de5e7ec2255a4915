import HclSyntax.Proofs.FreeVariables
import HclSyntax.Proofs.Grouping.Tree
import HclSyntax.Proofs.Range.Nesting

namespace HclSyntax

/-- The path that a walk passes. -/
def ExprStop.path? : ExprStop → Option Traversal
  | .expr (.scopeTraversal steps _) => some steps
  | _ => none

/-- The paths that a walk through the expression passes, bound or not. -/
def Expr.paths (e : Expr) : List Traversal := e.walk.filterMap ExprStop.path?

theorem freeTraversals_sublist (bound : List (List String)) (stops : List ExprStop) :
    (freeTraversals bound stops).Sublist (stops.filterMap ExprStop.path?) := by
  fun_induction freeTraversals bound stops with
  | case1 => exact .slnil
  | case2 bound steps range stops name? hbound ih => exact ih.cons steps
  | case3 bound steps range stops name? hbound ih => exact ih.cons_cons steps
  | case4 | case5 => assumption
  | case6 bound stop stops hpath henter hleave ih =>
    have hnone : stop.path? = none := by
      unfold ExprStop.path?
      split
      · exact absurd rfl (hpath _ _)
      · rfl
    rwa [List.filterMap_cons_none hnone]

namespace Expr

variable {e e' e'' x : Expr} {r r' r'' r₃ : SourceRange}

theorem variables_sublist (e : Expr) : e.variables.Sublist e.paths :=
  freeTraversals_sublist [] e.walk

theorem paths_of_children (h : ∀ steps range, e ≠ scopeTraversal steps range) :
    e.paths = e.children.flatMap paths := by
  have hall (es : List Expr) : (es.flatMap walk).filterMap ExprStop.path? = es.flatMap paths :=
    List.filterMap_flatMap
  cases e with
  | scopeTraversal => exact absurd rfl (h _ _)
  | comprehension =>
    rw [paths, walk_comprehension]
    simp [List.filterMap_cons, ExprStop.path?, children, hall, paths]
  | _ =>
    rw [paths, walk_of_children (by simp)]
    exact hall _

section
attribute [local simp] children

@[simp] theorem paths_literal {v : Value} : (literal v r).paths = [] := by
  simp [paths_of_children]

@[simp] theorem paths_element : (element r).paths = [] := by
  simp [paths_of_children]

@[simp] theorem paths_placeholder : (placeholder r).paths = [] := paths_literal

@[simp] theorem paths_templateWrap : (templateWrap e r).paths = e.paths := by
  simp [paths_of_children]

@[simp] theorem paths_templateJoin : (templateJoin e r).paths = e.paths := by
  simp [paths_of_children]

@[simp] theorem paths_template {parts : List Expr} :
    (template parts r).paths = parts.flatMap paths := by
  simp [paths_of_children]

@[simp] theorem paths_tuple {items : List Expr} :
    (tuple items r r').paths = items.flatMap paths := by
  simp [paths_of_children]

@[simp] theorem paths_object {items : List (Expr × Expr)} :
    (object items r r').paths = items.flatMap fun i => i.1.paths ++ i.2.paths := by
  simp [paths_of_children, List.flatMap_assoc]

@[simp] theorem paths_conditional :
    (conditional e e' e'' r).paths = e.paths ++ e'.paths ++ e''.paths := by
  simp [paths_of_children]

@[simp] theorem paths_binary {op : BinaryOp} :
    (binary op e e' r).paths = e.paths ++ e'.paths := by
  simp [paths_of_children]

@[simp] theorem paths_unary {op : UnaryOp} : (unary op e r r').paths = e.paths := by
  simp [paths_of_children]

@[simp] theorem paths_relativeTraversal {steps : Traversal} :
    (relativeTraversal e steps r).paths = e.paths := by
  simp [paths_of_children]

@[simp] theorem paths_index : (index e e' r r').paths = e.paths ++ e'.paths := by
  simp [paths_of_children]

@[simp] theorem paths_splat : (splat e e' r r' r'').paths = e.paths ++ e'.paths := by
  simp [paths_of_children]

@[simp] theorem paths_call {name : String} {args : List Expr} {expand : Bool} :
    (call name args expand r r' r'' r₃).paths = args.flatMap paths := by
  simp [paths_of_children]

@[simp] theorem paths_comprehension {k : Option String} {v : String} {key cond : Option Expr}
    {group : Bool} : (comprehension k v e key e' cond group r r' r'').paths =
      e.paths ++ key.toList.flatMap paths ++ e'.paths ++ cond.toList.flatMap paths := by
  simp [paths_of_children]

end

/-- The paths of a node are among those of every tree that it is in. -/
theorem paths_sublist_of_mem_walk (h : .expr x ∈ e.walk) : x.paths.Sublist e.paths := by
  induction e using induction_children with
  | node e ih =>
  rcases expr_mem_walk.mp h with rfl | ⟨y, hy, h⟩
  · exact .refl _
  · have hne : ∀ steps range, e ≠ scopeTraversal steps range := by
      rintro steps range rfl
      cases hy
    rw [paths_of_children hne, List.flatMap_def]
    exact (ih y hy h).trans (List.sublist_flatten_of_mem (List.mem_map_of_mem hy))

end Expr

/-- The paths in the expression of a directive, if it has one. -/
def Directive.paths (d : Directive) : List Traversal := d.expr?.toList.flatMap Expr.paths

/-- The paths in the expression of a part. -/
def TemplatePart.paths (p : TemplatePart) : List Traversal := p.expr?.toList.flatMap Expr.paths

@[simp] theorem TemplatePart.paths_text {value : String} {r : SourceRange} :
    (text value r).paths = [] := rfl

@[simp] theorem TemplatePart.paths_interpolation {e : Expr} {r : SourceRange} :
    (interpolation e r).paths = e.paths := by
  simp [TemplatePart.paths, TemplatePart.expr?]

@[simp] theorem TemplatePart.paths_directive {d : Directive} {r : SourceRange} :
    (directive d r).paths = d.paths := rfl

theorem TemplatePart.paths_trimLast (parts : List TemplatePart) :
    (trimLast parts).flatMap TemplatePart.paths = parts.flatMap TemplatePart.paths := by
  unfold trimLast
  split
  · rename_i value r h
    obtain ⟨front, rfl⟩ := List.getLast?_eq_some_iff.mp h
    simp
  · rfl

/-- The paths in an open directive, so far. -/
def Frame.paths : Frame → List Traversal
  | .conditional condition _ ifTrue ifFalse =>
    condition.paths ++ ifTrue.flatMap Expr.paths ++ (ifFalse.getD []).flatMap Expr.paths
  | .loop _ _ collection _ body => collection.paths ++ body.flatMap Expr.paths

namespace Nesting

/-- The paths of a template so far, those in the innermost directive last. -/
def paths (n : Nesting) : List Traversal :=
  n.exprs.flatMap Expr.paths ++ n.frames.reverse.flatMap Frame.paths

variable {n : Nesting} {e : Expr} {r : SourceRange} {f : Frame} {frames : List Frame}

@[simp] theorem paths_branch (exprs : List Expr) (r : SourceRange) :
    (branch exprs r).paths = exprs.flatMap Expr.paths := by
  cases exprs <;> simp [branch]

theorem paths_push (n : Nesting) (e : Expr) : (n.push e).paths = n.paths ++ e.paths := by
  unfold push
  split <;> rename_i h <;> simp [paths, Frame.paths, h]

theorem paths_fail (n : Nesting) (p : Problem) (r : SourceRange) :
    (n.fail p r).paths = n.paths := by
  rw [fail, paths_push, Expr.paths_placeholder, List.append_nil]
  rfl

theorem paths_of_frames (h : n.frames = f :: frames) :
    n.paths = paths { n with frames } ++ f.paths := by
  simp [paths, h]

/-- What gives up the innermost directive drops its paths. -/
theorem paths_drop (h : n.frames = f :: frames) :
    (paths { n with frames }).Sublist n.paths := by
  rw [paths_of_frames h]
  exact List.sublist_append_left _ _

theorem paths_closeConditional {condition : Expr} {start stop : SourceRange}
    {ifTrue : List Expr} {ifFalse : Option (List Expr)} :
    (closeConditional condition start ifTrue ifFalse stop).paths =
      (Frame.conditional condition start ifTrue ifFalse).paths := by
  simp [closeConditional, Frame.paths]

theorem paths_closeLoop {k : Option String} {v : String} {collection : Expr}
    {start stop : SourceRange} {body : List Expr} :
    (closeLoop k v collection start body stop).paths =
      (Frame.loop k v collection start body).paths := by
  simp [closeLoop, Frame.paths]

theorem paths_directive (n : Nesting) (d : Directive) (r : SourceRange) :
    (n.directive d r).paths.Sublist (n.paths ++ d.paths) := by
  unfold Nesting.directive
  split
  case h_1 => simp [paths, Frame.paths, Directive.paths, Directive.expr?]
  case h_2 => simp [paths, Frame.paths, Directive.paths, Directive.expr?]
  -- no other directive holds an expression
  all_goals refine List.sublist_append_of_sublist_left ?_
  case h_3 hn =>
    rw [paths_of_frames hn]
    simp [paths, Frame.paths]
  case h_7 hn => rw [paths_push, paths_closeConditional, ← paths_of_frames hn]
  case h_10 hn => rw [paths_push, paths_closeLoop, ← paths_of_frames hn]
  case h_6 | h_9 | h_12 => rw [paths_fail]
  all_goals
    rename_i hn
    rw [paths_fail]
    exact paths_drop hn

theorem paths_part (n : Nesting) (p : TemplatePart) :
    (n.part p).paths.Sublist (n.paths ++ p.paths) := by
  cases p with
  | text value range => rw [part, paths_push, Expr.paths_literal, TemplatePart.paths_text]
  | interpolation e range => rw [part, paths_push, TemplatePart.paths_interpolation]
  | directive d range => exact paths_directive n d range

theorem paths_foldl (parts : List TemplatePart) (n : Nesting) :
    (parts.foldl part n).paths.Sublist (n.paths ++ parts.flatMap TemplatePart.paths) := by
  induction parts generalizing n with
  | nil => simp
  | cons p parts ih =>
    rw [List.foldl_cons, List.flatMap_cons, ← List.append_assoc]
    exact (ih (n.part p)).trans ((paths_part n p).append (.refl _))

/-- The expressions of a template have the paths of its parts, in the same order, but for those in
directives that are given up. -/
theorem paths_ofParts (parts : List TemplatePart) (stop : SourceRange) :
    ((ofParts parts stop).1.flatMap Expr.paths).Sublist (parts.flatMap TemplatePart.paths) := by
  have hexprs (n : Nesting) : ((n.finish stop).exprs.flatMap Expr.paths).Sublist n.paths := by
    unfold finish
    split
    · exact List.sublist_append_left _ _
    · simp [paths]
  exact (hexprs _).trans (paths_foldl parts ⟨[], [], []⟩)

end Nesting

end HclSyntax
