import HclSyntax.Proofs.Delivery
import HclSyntax.Proofs.Grammar.Passing
import HclSyntax.Proofs.Order.Tree
import HclSyntax.Proofs.Range.Run
import Mathlib.Data.List.Forall2

namespace HclSyntax

/-- The path begins with the variable that the token names. -/
def Traversal.BeginsAt (steps : Traversal) (t : Token) : Prop :=
  t.kind = .identifier ∧ steps.head? = some (.root t.text t.range)

def Attribute.NamedBy (a : Attribute) (t : Token) : Prop :=
  t.kind = .identifier ∧ a.name = t.text ∧ a.nameRange = t.range

def Block.NamedBy (b : Block) (t : Token) : Prop :=
  t.kind = .identifier ∧ b.type = t.text ∧ b.typeRange = t.range

section
variable {α : Type} {R S : α → Token → Prop} {xs ys : List α} {x y : α} {ts us : List Token}

open List (SublistForall₂ Forall₂)

theorem sublistForall₂_of_sublist (h : SublistForall₂ R xs ts) (hs : ys.Sublist xs) :
    SublistForall₂ R ys ts := by
  induction h generalizing ys with
  | nil => exact List.sublist_nil.mp hs ▸ .nil
  | cons hr _ ih =>
    cases hs with
    | cons _ hs => exact .cons_right (ih hs)
    | cons_cons _ hs => exact .cons hr (ih hs)
  | cons_right _ ih => exact .cons_right (ih hs)

theorem sublistForall₂_append (h : SublistForall₂ R xs ts) (h' : SublistForall₂ R ys us) :
    SublistForall₂ R (xs ++ ys) (ts ++ us) := by
  obtain ⟨l, hl, hs⟩ := List.sublistForall₂_iff.mp h
  obtain ⟨l', hl', hs'⟩ := List.sublistForall₂_iff.mp h'
  exact List.sublistForall₂_iff.mpr ⟨l ++ l', List.rel_append hl hl', hs.append hs'⟩

theorem sublistForall₂_sublist (h : SublistForall₂ R xs ts) (hs : ts.Sublist us) :
    SublistForall₂ R xs us := by
  obtain ⟨l, hl, hl'⟩ := List.sublistForall₂_iff.mp h
  exact List.sublistForall₂_iff.mpr ⟨l, hl, hl'.trans hs⟩

/-- Tokens that nothing can begin with do not count. -/
theorem sublistForall₂_filter {f : Token → Bool} (h : SublistForall₂ R xs ts)
    (hf : ∀ x t, R x t → f t = true) : SublistForall₂ R xs (ts.filter f) := by
  induction h with
  | nil => exact .nil
  | cons hr _ ih =>
    rw [List.filter_cons_of_pos (hf _ _ hr)]
    exact .cons hr ih
  | @cons_right t xs ts _ ih =>
    cases ht : f t with
    | true =>
      rw [List.filter_cons_of_pos ht]
      exact .cons_right ih
    | false =>
      rw [List.filter_cons_of_neg (by simp [ht])]
      exact ih

/-- What is so of any two tokens, the first in front of the second, is so of what begins there. -/
theorem sublistForall₂_pairwise {S : Token → Token → Prop} {T : α → α → Prop}
    (h : SublistForall₂ R xs ts) (hS : ts.Pairwise S)
    (hT : ∀ {x y t u}, R x t → R y u → S t u → T x y) : xs.Pairwise T := by
  obtain ⟨us, hus, hsub⟩ := List.sublistForall₂_iff.mp h
  have hS := hS.sublist hsub
  clear hsub h
  induction hus with
  | nil => exact .nil
  | @cons x t xs us hr hrest ih =>
    obtain ⟨hfirst, hS⟩ := List.pairwise_cons.mp hS
    refine .cons (fun y hy => ?_) (ih hS)
    obtain ⟨i, hi, rfl⟩ := List.mem_iff_getElem.mp hy
    have hlen := hrest.length_eq
    exact hT hr (hrest.get hi (hlen ▸ hi)) (hfirst _ (List.getElem_mem _))

/-- What has the token of the last one may stand in its place. -/
theorem sublistForall₂_replace (h : SublistForall₂ R (xs ++ [x]) ts) (hxy : ∀ t, R x t → R y t) :
    SublistForall₂ R (xs ++ [y]) ts := by
  induction ts generalizing xs with
  | nil =>
    cases xs <;> cases h
  | cons t ts ih =>
    cases xs with
    | nil =>
      cases h with
      | cons hr _ => exact .cons (hxy _ hr) .nil
      | cons_right h => exact .cons_right (ih h)
    | cons z xs =>
      cases h with
      | cons hr h => exact .cons hr (ih h)
      | cons_right h => exact .cons_right (ih h)

end

namespace Cursor

variable {α : Type} {l : TokenList} {R : α → Token → Prop} {xs ys : List α} {x y : α}
  {c c' : Cursor}

theorem IsIn.reaches (h : c.IsIn l) (hr : c.Reaches c') : c'.IsIn l := by
  obtain ⟨-, heof, ts, hahead, hbehind⟩ := hr
  refine ⟨?_, heof.trans h.eof⟩
  rw [← h.whole, hahead, hbehind, List.reverse_append, List.reverse_reverse, List.append_assoc]

/-- A place in the list behind one token for each of `xs`, in their order. -/
structure Met (l : TokenList) (R : α → Token → Prop) (xs : List α) (c : Cursor) : Prop
    extends c.IsIn l where
  met : List.SublistForall₂ R xs c.passed.reverse

namespace Met

theorem of_isIn (h : c.IsIn l) : c.Met l R [] := ⟨h, .nil⟩

theorem inMode (h : c.Met l R xs) : c.InMode c.newlinesCount := ⟨rfl, h.eof ▸ l.eof_kind⟩

theorem enter (h : c.Met l R xs) (newlines : Bool) : (c.enter newlines).Met l R xs :=
  ⟨⟨h.whole, h.eof⟩, h.met⟩

theorem leave (h : c.Met l R xs) : c.leave.Met l R xs := ⟨⟨h.whole, h.eof⟩, h.met⟩

theorem sublist (h : c.Met l R xs) (hs : ys.Sublist xs) : c.Met l R ys :=
  ⟨h.toIsIn, sublistForall₂_of_sublist h.met hs⟩

/-- Only the first ones count. -/
theorem left (h : c.Met l R (xs ++ ys)) : c.Met l R xs := h.sublist (List.sublist_append_left _ _)

theorem reaches (h : c.Met l R xs) (hr : c.Reaches c') : c'.Met l R xs := by
  refine ⟨h.toIsIn.reaches hr, sublistForall₂_sublist h.met ?_⟩
  obtain ⟨more, -, hbehind⟩ := hr.tokens
  rw [hbehind, List.reverse_append]
  exact List.sublist_append_left _ _

theorem advance (h : c.Met l R xs) : c.advance.Met l R xs := h.reaches c.reaches_advance

/-- One more, whose token is the next. -/
theorem concat (h : c.Met l R xs) (hk : c.peek.kind ≠ .eof) (hx : R x c.peek) :
    c.advance.Met l R (xs ++ [x]) := by
  -- nothing but what is hidden lies between the place and the token
  obtain ⟨ts, hpasses, hs, rfl, -, -⟩ := h.inMode.sees hk
  have hpassed : c.advance.passed.reverse = c.passed.reverse ++ (hs ++ [c.peek]) := by
    have hwhole := c.passed_advance
    rw [hpasses.rest, ← List.append_assoc] at hwhole
    exact List.append_cancel_right hwhole
  have hlast : List.SublistForall₂ R [x] (hs ++ [c.peek]) :=
    List.sublistForall₂_iff.mpr ⟨[c.peek], .cons hx .nil, List.sublist_append_right _ _⟩
  exact ⟨h.toIsIn.moves, hpassed ▸ sublistForall₂_append h.met hlast⟩

theorem replace (h : c.Met l R (xs ++ [x])) (hxy : ∀ t, R x t → R y t) : c.Met l R (xs ++ [y]) :=
  ⟨h.toIsIn, sublistForall₂_replace h.met hxy⟩

theorem inSource (h : c.Met l R xs) : List.SublistForall₂ R xs l.toList :=
  sublistForall₂_sublist h.met (h.whole ▸ List.sublist_append_left _ _)

end Met

end Cursor

namespace Parser

open Cursor (Met)

variable {α β : Type} {l : TokenList} {R : α → Token → Prop} {xs : List α} {c : Cursor}

/-- A parser that answers with no expression passes on what was met. -/
theorem Framed.meets {p : Parser β} (hp : Framed p) (h : c.Met l R xs) :
    Ends p c fun _ c' => c'.Met l R xs := fun b _ => h.reaches (hp ⟨c, b⟩)

theorem Framed.meets_seq {γ : Type} {p : Parser β} {f : β → Parser γ} {Q : γ → Cursor → Prop}
    (hp : Framed p) (h : c.Met l R xs) (hf : ∀ a c', c'.Met l R xs → Ends (f a) c' Q) :
    Ends (p >>= f) c Q := (hp.meets h).seq hf

/-- What every step keeps is so at the end. -/
theorem ends_iterate {σ : Type} {step : σ → Parser (σ × Bool)} {I : σ → Cursor → Prop} {a : σ}
    (h : Advances step) (hs : ∀ {a c}, I a c → Ends (step a) c fun r c' => I r.1 c')
    (he : c.eof.kind = .eof) (hi : I a c) : Ends (iterate step a) c I :=
  .iterate h (fun _ _ hi => (hs hi).mono fun r c' h => by split <;> exact h) he hi

/-- A place behind the tokens that paths begin with. -/
abbrev Told (l : TokenList) (paths : List Traversal) (c : Cursor) : Prop :=
  c.Met l Traversal.BeginsAt paths

/-- The paths of what is read follow those that were met before. -/
def Tells (l : TokenList) (p : Parser Expr) : Prop :=
  ∀ ⦃c paths⦄, Told l paths c → Ends p c fun e c' => Told l (paths ++ e.paths) c'

/-- Likewise for parsers that make an expression longer. -/
def TellsOn (l : TokenList) (p : Expr → Parser Expr) : Prop :=
  ∀ ⦃c paths e⦄, Told l (paths ++ e.paths) c → Ends (p e) c fun e c' => Told l (paths ++ e.paths) c'

variable {paths : List Traversal} {e : Expr}

/-- A path begins where it did when it gets longer. -/
theorem Told.step (h : Told l (paths ++ e.paths) c) (s : TraversalStep) :
    Told l (paths ++ (e.step s).paths) c := by
  unfold Expr.step
  split
  · refine h.replace fun t ht => ⟨ht.1, ?_⟩
    rw [List.head?_append, ht.2]
    rfl
  · exact h
  · rwa [Expr.paths_relativeTraversal]

theorem tells_invalid : Tells l invalid := fun c paths h b _ => by
  have hstay := still_invalid ⟨c, b⟩
  change Told l (paths ++ (Expr.placeholder _).paths) (invalid ⟨c, b⟩).state.cursor
  rw [hstay, Expr.paths_placeholder, List.append_nil]
  exact h

theorem Tells.withNewlines {p : Parser Expr} (h : Tells l p) (newlines : Bool) :
    Tells l (withNewlines newlines p) := fun _ _ hc =>
  Arrives.withNewlines ((h (hc.enter newlines)).mono fun _ _ h => h.leave)

section
variable {expression operand tighter : Parser Expr}

theorem tells_operators {level : Level} (hl : level ∈ BinaryOp.levels) (ht : Tells l tighter)
    (hf : Framed tighter) : Tells l (operators level tighter) := by
  intro c paths hc
  refine (ht hc).track_seq fun lhs lost c₁ h₁ => ?_
  dsimp only
  split
  · exact arrives_pure h₁
  refine ends_iterate (I := fun lhs c' => Told l (paths ++ lhs.paths) c')
    (advances_operatorStep hf hl) (fun {lhs c'} h => arrives_peekKind_bind ?_) h₁.inMode.ends h₁
  split
  · exact arrives_pure h
  refine arrives_skip_bind ((ht h.advance).track_seq fun rhs lost c₂ h₂ => ?_)
  dsimp only
  split
  · exact arrives_pure h₂.left
  · exact arrives_pure (by simpa using h₂)

theorem tells_binary (ho : Tells l operand) (hf : Framed operand) : Tells l (binary operand) :=
  binary_induction hf ho fun _ hl _ hf hp => tells_operators hl hp hf

theorem tells_conditional (he : Tells l expression) (ho : Tells l operand) (hf : Framed operand) :
    Tells l (conditional expression operand) := by
  intro c paths hc
  refine arrives_peek_bind ((tells_binary ho hf hc).track_seq fun condition lost c₁ h₁ => ?_)
  dsimp only
  split
  · exact arrives_pure h₁
  refine arrives_peekKind_bind ?_
  split
  · exact arrives_pure h₁
  -- without a second result the first is given up as well
  refine arrives_skip_bind ((he h₁.advance).track_seq fun ifTrue lost c₂ h₂ => ?_)
  dsimp only
  split
  · exact arrives_pure h₂.left
  refine arrives_peek_bind ?_
  split
  · exact (still_report _ _ _).seq fun _ => arrives_pure h₂.left
  refine arrives_skip_bind ((he h₂.advance).track_seq fun ifFalse lost c₃ h₃ => ?_)
  dsimp only
  split
  · exact arrives_pure h₃.left.left
  · exact arrives_pure (by simpa using h₃)

end

end Parser

end HclSyntax
