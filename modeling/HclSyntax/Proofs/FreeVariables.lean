import HclSyntax.Proofs.Range.Tree
import Mathlib.Data.Finset.Option

namespace HclSyntax

namespace Expr

/-- The paths from variables that are not in `bound`, in the order of the tree. A comprehension
binds its variables in its key, its value and its condition. -/
def free (bound : Finset String) : Expr → List Traversal
  | scopeTraversal steps range =>
    if ∃ name ∈ (scopeTraversal steps range).rootName?, name ∈ bound then [] else [steps]
  | comprehension keyVar valueVar collection key value condition _ _ _ _ =>
    collection.free bound ++
      (key.toList ++ value :: condition.toList).attach.flatMap fun ⟨x, _⟩ =>
        x.free (insert valueVar (keyVar.toFinset ∪ bound))
  | e => e.children.attach.flatMap fun ⟨x, _⟩ => x.free bound
termination_by e => sizeOf e
decreasing_by
  · exact sizeOf_lt_of_mem_children (by simp [children])
  · exact sizeOf_lt_of_mem_children (List.mem_cons_of_mem _ ‹_›)
  · exact sizeOf_lt_of_mem_children ‹_›

variable {bound : Finset String} {e : Expr}

theorem free_comprehension {keyVar : Option String} {valueVar : String} {collection value : Expr}
    {key condition : Option Expr} {group : Bool} {opening closing range : SourceRange} :
    (comprehension keyVar valueVar collection key value condition group opening closing range).free
        bound =
      collection.free bound ++ (key.toList ++ value :: condition.toList).flatMap
        (free (insert valueVar (keyVar.toFinset ∪ bound))) := by
  rw [free, List.flatMap_subtype fun _ _ => rfl, List.unattach_attach]

/-- Every other node passes the bound names on as they are. -/
theorem free_of_children (hpath : ∀ steps range, e ≠ scopeTraversal steps range)
    (hcomp : ∀ k v c key value cond g r r' r'', e ≠ comprehension k v c key value cond g r r' r'') :
    e.free bound = e.children.flatMap (free bound) := by
  rw [free.eq_3 _ _ hpath hcomp, List.flatMap_subtype fun _ _ => rfl, List.unattach_attach]

theorem walkAll_eq (es : List Expr) : walkAll es = es.flatMap walk := by
  induction es with
  | nil => rfl
  | cons e es ih => simp [walkAll, ih]

theorem walkItems_eq (items : List (Expr × Expr)) :
    walkItems items = (items.flatMap fun i => [i.1, i.2]).flatMap walk := by
  induction items with
  | nil => rfl
  | cons i items ih =>
    obtain ⟨key, value⟩ := i
    simp [walkItems, walkItem, ih]

theorem walkOption_eq (e : Option Expr) : walkOption e = e.toList.flatMap walk := by
  cases e <;> simp [walkOption]

theorem walk_comprehension {keyVar : Option String} {valueVar : String}
    {collection value : Expr} {key condition : Option Expr} {group : Bool}
    {opening closing range : SourceRange} :
    (comprehension keyVar valueVar collection key value condition group opening closing
        range).walk =
      .expr (comprehension keyVar valueVar collection key value condition group opening closing
        range) :: .comprehension valueVar :: (collection.walk ++
          .enter (keyVar.toList ++ [valueVar]) ::
            ((key.toList ++ value :: condition.toList).flatMap walk ++ [.leave])) := by
  simp [walk, walkOption_eq]

theorem walk_of_children
    (hcomp : ∀ k v c key value cond g r r' r'', e ≠ comprehension k v c key value cond g r r' r'') :
    e.walk = .expr e :: e.children.flatMap walk := by
  cases e with
  | comprehension => exact absurd rfl (hcomp _ _ _ _ _ _ _ _ _ _)
  | _ => simp [walk, children, walkAll_eq, walkItems_eq]

/-- The names of all scopes that are open. -/
def namesOf (bound : List (List String)) : Finset String := bound.flatten.toFinset

theorem namesOf_cons {keyVar : Option String} {valueVar : String} {bound : List (List String)} :
    namesOf ((keyVar.toList ++ [valueVar]) :: bound) =
      insert valueVar (keyVar.toFinset ∪ namesOf bound) := by
  ext name
  simp [namesOf]

/-- A name is looked for in all scopes. -/
theorem isBound_iff {bound : List (List String)} {name? : Option String} :
    (bound.any fun names => name?.any names.contains) = true ↔
      ∃ name ∈ name?, name ∈ namesOf bound := by
  cases name? <;> simp [namesOf]

/-- A walk through expressions in a row, each of which leaves the stack as it was. -/
theorem freeTraversals_flatMap {es : List Expr}
    (h : ∀ x ∈ es, ∀ bound stops, freeTraversals bound (x.walk ++ stops) =
      x.free (namesOf bound) ++ freeTraversals bound stops)
    (bound : List (List String)) (stops : List ExprStop) :
    freeTraversals bound (es.flatMap walk ++ stops) =
      es.flatMap (free (namesOf bound)) ++ freeTraversals bound stops := by
  induction es with
  | nil => rfl
  | cons e es ih =>
    obtain ⟨he, hes⟩ := List.forall_mem_cons.mp h
    rw [List.flatMap_cons, List.flatMap_cons, List.append_assoc, List.append_assoc, he, ih hes]

/-- A walk through a tree finds the free variables of the tree, and leaves the stack as it was. -/
theorem freeTraversals_walk (e : Expr) (bound : List (List String)) (stops : List ExprStop) :
    freeTraversals bound (e.walk ++ stops) =
      e.free (namesOf bound) ++ freeTraversals bound stops := by
  induction e using induction_children generalizing bound stops with
  | node e ih =>
  cases e with
  | scopeTraversal steps range =>
    rw [free]
    simp only [walk, List.cons_append, List.nil_append, freeTraversals, isBound_iff]
    split <;> rfl
  | comprehension keyVar valueVar collection key value condition =>
    have hscope : ∀ x ∈ key.toList ++ value :: condition.toList, ∀ bound stops,
        freeTraversals bound (x.walk ++ stops) =
          x.free (namesOf bound) ++ freeTraversals bound stops :=
      fun x hx => ih x (List.mem_cons_of_mem _ hx)
    have hcollection := ih collection List.mem_cons_self
    -- the names are put on the stack in front of the scope and taken off behind it
    have hinner := freeTraversals_flatMap hscope ((keyVar.toList ++ [valueVar]) :: bound)
      (.leave :: stops)
    rw [walk_comprehension, free_comprehension, ← namesOf_cons]
    simp only [List.cons_append, List.nil_append, List.append_assoc, freeTraversals,
      List.tail_cons] at hcollection hinner ⊢
    rw [hcollection, freeTraversals, hinner]
  | _ =>
    rw [walk_of_children, free_of_children]
    · exact freeTraversals_flatMap ih bound stops
    all_goals simp

end Expr

end HclSyntax
