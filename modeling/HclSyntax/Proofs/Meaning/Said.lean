import Mathlib.Data.List.Forall2
import Mathlib.Data.Option.Basic
import HclSyntax.Parser.Body
import HclSyntax.Proofs.Grammar.Tree

namespace HclSyntax

/-- Kinds of token whose bytes are read. -/
def TokenKind.isSpelled : TokenKind → Bool
  | identifier | number | quotedChunk | plainChunk | comment | interpolation | directive
  | sequenceEnd => true
  | _ => false

/-- What is said by a value, wherever it stands. -/
class Placed (α : Type) where
  Said : Type
  said : α → Said

namespace Placed

instance : Placed Unit := ⟨Unit, id⟩
instance : Placed Bool := ⟨Bool, id⟩
instance : Placed Nat := ⟨Nat, id⟩
instance : Placed String := ⟨String, id⟩
instance : Placed Value := ⟨Value, id⟩
instance : Placed TokenKind := ⟨TokenKind, id⟩
instance : Placed SourceRange := ⟨Unit, fun _ => ()⟩

instance {α : Type} [Placed α] : Placed (List α) := ⟨List (Said α), List.map said⟩
instance {α : Type} [Placed α] : Placed (Option α) := ⟨Option (Said α), Option.map said⟩
instance {α β : Type} [Placed α] [Placed β] : Placed (α × β) :=
  ⟨Said α × Said β, fun p => (said p.1, said p.2)⟩

instance : Placed Token :=
  ⟨TokenKind × List UInt8, fun t => (t.kind, if t.kind.isSpelled then t.bytes else [])⟩

instance : Placed TraversalStep := ⟨Step, TraversalStep.plain⟩
instance : Placed Expr := ⟨Tree, Expr.tree⟩
instance : Placed Directive := ⟨Sequence, Directive.sequence⟩
instance : Placed TemplatePart := ⟨Piece, TemplatePart.piece⟩
instance : Placed Attribute := ⟨String × Tree, fun a => (a.name, a.expr.tree)⟩
instance : Placed Block := ⟨BlockTree, Block.tree⟩
instance : Placed Body := ⟨BodyTree, Body.tree⟩

instance : Placed Diagnostic :=
  ⟨ErrorCode × Severity × String, fun d => (d.code, d.severity, d.summary)⟩

/-- Values that have no place. -/
class Plain (α : Type) [Placed α] : Prop where
  injective : Function.Injective (said : α → Said α)

instance : Plain Unit := ⟨Function.injective_id⟩
instance : Plain Bool := ⟨Function.injective_id⟩
instance : Plain Nat := ⟨Function.injective_id⟩
instance : Plain String := ⟨Function.injective_id⟩
instance : Plain Value := ⟨Function.injective_id⟩
instance : Plain TokenKind := ⟨Function.injective_id⟩

variable {α β : Type} [Placed α] [Placed β]

instance [Plain α] : Plain (List α) := ⟨List.map_injective_iff.mpr Plain.injective⟩

instance [Plain α] : Plain (Option α) := ⟨Option.map_injective Plain.injective⟩

instance [Plain α] [Plain β] : Plain (α × β) :=
  ⟨fun _ _ h => Prod.ext (Plain.injective (Prod.mk.inj h).1) (Plain.injective (Prod.mk.inj h).2)⟩

end Placed

/-- In what two values that say the same may differ. -/
structure Likeness where
  /-- Places are the same, and so is everything else. -/
  exact : Prop
  /-- Newlines are as little seen as comments. -/
  joined : Bool
  /-- There are opening braces. -/
  braces : Bool

namespace Likeness

variable {x : Likeness} {α β : Type} [Placed α] [Placed β]

open Placed

/-- The two say the same, and are the same if places are. -/
structure Like (x : Likeness) {α : Type} [Placed α] (a a' : α) : Prop where
  same : said a = said a'
  eq : x.exact → a = a'

namespace Like

theorem refl (a : α) : x.Like a a := ⟨rfl, fun _ => rfl⟩

/-- What follows from what is said is alike for what is alike. -/
theorem map {f : α → β} {a a' : α} (h : x.Like a a')
    (hf : said a = said a' → said (f a) = said (f a')) : x.Like (f a) (f a') :=
  ⟨hf h.same, fun hx => congrArg f (h.eq hx)⟩

theorem plain [Plain α] {a a' : α} (h : x.Like a a') : a = a' := Plain.injective h.same

theorem pair {a a' : α} {b b' : β} (h : x.Like a a') (h' : x.Like b b') :
    x.Like (a, b) (a', b') :=
  ⟨congrArg₂ Prod.mk h.same h'.same, fun hx => congrArg₂ Prod.mk (h.eq hx) (h'.eq hx)⟩

theorem fst {p p' : α × β} (h : x.Like p p') : x.Like p.1 p'.1 :=
  h.map fun hs => congrArg Prod.fst hs

theorem snd {p p' : α × β} (h : x.Like p p') : x.Like p.2 p'.2 :=
  h.map fun hs => congrArg Prod.snd hs

theorem cons {a a' : α} {l l' : List α} (h : x.Like a a') (hl : x.Like l l') :
    x.Like (a :: l) (a' :: l') :=
  ⟨congrArg₂ List.cons h.same hl.same, fun hx => congrArg₂ List.cons (h.eq hx) (hl.eq hx)⟩

theorem append {l l' m m' : List α} (h : x.Like l l') (hm : x.Like m m') :
    x.Like (l ++ m) (l' ++ m') := by
  refine ⟨?_, fun hx => congrArg₂ _ (h.eq hx) (hm.eq hx)⟩
  change (l ++ m).map Placed.said = (l' ++ m').map Placed.said
  rw [List.map_append, List.map_append]
  exact congrArg₂ _ h.same hm.same

theorem singleton {a a' : α} (h : x.Like a a') : x.Like [a] [a'] := h.cons (refl [])

theorem eq_nil {l : List α} (h : x.Like [] l) : l = [] :=
  List.map_eq_nil_iff.mp (Eq.symm h.same : l.map Placed.said = [])

theorem uncons {a : α} {l m : List α} (h : x.Like (a :: l) m) :
    ∃ a' l', m = a' :: l' ∧ x.Like a a' ∧ x.Like l l' := by
  obtain ⟨a', l', rfl, ha, hl⟩ :=
    List.map_eq_cons_iff.mp (Eq.symm h.same : m.map Placed.said = _)
  exact ⟨a', l', rfl, ⟨ha.symm, fun hx => (List.cons.inj (h.eq hx)).1⟩,
    ⟨hl.symm, fun hx => (List.cons.inj (h.eq hx)).2⟩⟩

theorem unconcat {a : α} {l m : List α} (h : x.Like (l ++ [a]) m) :
    ∃ l' a', m = l' ++ [a'] ∧ x.Like l l' ∧ x.Like a a' := by
  have hs : m.map Placed.said = l.map Placed.said ++ [Placed.said a] := by
    rw [← List.map_singleton, ← List.map_append]
    exact Eq.symm h.same
  obtain ⟨l', m', rfl, hl, hm⟩ := List.map_eq_append_iff.mp hs
  obtain ⟨a', rfl, ha⟩ := List.map_eq_singleton_iff.mp hm
  have he (hx : x.exact) := List.append_inj' (h.eq hx) rfl
  exact ⟨l', a', rfl, ⟨hl.symm, fun hx => (he hx).1⟩,
    ⟨ha.symm, fun hx => (List.cons.inj (he hx).2).1⟩⟩

theorem isEmpty {l l' : List α} (h : x.Like l l') : l.isEmpty = l'.isEmpty := by
  cases l with
  | nil => rw [h.eq_nil]
  | cons a l =>
    obtain ⟨_, _, rfl, -⟩ := h.uncons
    rfl

theorem some {a a' : α} (h : x.Like a a') : x.Like (some a) (some a') :=
  h.map fun hs => congrArg Option.some hs

theorem eq_none {o : Option α} (h : x.Like none o) : o = none :=
  Option.map_eq_none_iff.mp (Eq.symm h.same : o.map Placed.said = none)

theorem of_some {a : α} {o : Option α} (h : x.Like (Option.some a) o) :
    ∃ a', o = Option.some a' ∧ x.Like a a' := by
  obtain ⟨a', rfl, ha⟩ := Option.map_eq_some_iff.mp (Eq.symm h.same : o.map Placed.said = _)
  exact ⟨a', rfl, ha.symm, fun hx => Option.some.inj (h.eq hx)⟩

theorem toList {o o' : Option α} (h : x.Like o o') : x.Like o.toList o'.toList := by
  cases o with
  | none =>
    rw [h.eq_none]
    exact refl _
  | some a =>
    obtain ⟨a', rfl, ha⟩ := h.of_some
    exact ha.singleton

theorem head? {l l' : List α} (h : x.Like l l') : x.Like l.head? l'.head? := by
  cases l with
  | nil =>
    rw [h.eq_nil]
    exact refl _
  | cons a l =>
    obtain ⟨a', l', rfl, ha, -⟩ := h.uncons
    exact ha.some

/-- Lists are alike member by member. -/
theorem iff_forall₂ {l l' : List α} : x.Like l l' ↔ List.Forall₂ x.Like l l' := by
  constructor
  · intro h
    induction l generalizing l' with
    | nil =>
      rw [h.eq_nil]
      exact .nil
    | cons a l ih =>
      obtain ⟨a', l', rfl, ha, hl⟩ := h.uncons
      exact .cons ha (ih hl)
  · intro h
    induction h with
    | nil => exact refl []
    | cons ha _ ih => exact ha.cons ih

/-- A test that like values pass alike keeps what is alike. -/
theorem filter {f : α → Bool} {l l' : List α} (h : x.Like l l')
    (hf : ∀ a a', x.Like a a' → f a = f a') : x.Like (l.filter f) (l'.filter f) := by
  rw [iff_forall₂] at h ⊢
  exact List.rel_filter (fun a a' ha => by simp only [hf a a' ha]) h

theorem dropWhile {f : α → Bool} {l l' : List α} (h : x.Like l l')
    (hf : ∀ a a', x.Like a a' → f a = f a') : x.Like (l.dropWhile f) (l'.dropWhile f) := by
  induction iff_forall₂.mp h with
  | nil => exact h
  | @cons a a' l l' ha hl ih =>
    have hlike := iff_forall₂.mpr hl
    rw [List.dropWhile_cons, List.dropWhile_cons, hf a a' ha]
    split
    · exact ih hlike
    · exact ha.cons hlike

theorem mapAll {f g : α → β} {l l' : List α} (h : x.Like l l')
    (hf : ∀ a a', x.Like a a' → x.Like (f a) (g a')) : x.Like (l.map f) (l'.map g) := by
  rw [iff_forall₂] at h ⊢
  exact List.rel_map (fun a a' => hf a a') h

theorem flatMap {f : α → List β} {l l' : List α} (h : x.Like l l')
    (hf : ∀ a a', x.Like a a' → x.Like (f a) (f a')) :
    x.Like (l.flatMap f) (l'.flatMap f) := by
  rw [iff_forall₂] at h ⊢
  exact List.rel_flatMap h fun a a' ha => iff_forall₂.mp (hf a a' ha)

theorem range {r r' : SourceRange} (h : x.exact → r = r') : x.Like r r' := ⟨rfl, h⟩

theorem between {r r' s s' : SourceRange} (h : x.Like r r') (hs : x.Like s s') :
    x.Like (r.between s) (r'.between s') :=
  range fun hx => congrArg₂ _ (h.eq hx) (hs.eq hx)

/-- The same problem at like places. -/
theorem toDiagnostic (p : Problem) {r r' : SourceRange} {o o' : Option SourceRange}
    (hr : x.Like r r') (ho : x.Like o o') : x.Like (p.toDiagnostic r o) (p.toDiagnostic r' o') :=
  ⟨rfl, fun hx => by rw [hr.eq hx, ho.eq hx]⟩

section
variable {t t' : Token} (h : x.Like t t')
include h

theorem kind : t.kind = t'.kind := congrArg Prod.fst h.same

theorem bytes (hk : t.kind.isSpelled) : t.bytes = t'.bytes := by
  have hb := congrArg Prod.snd h.same
  change (if t.kind.isSpelled then t.bytes else []) = if t'.kind.isSpelled then _ else _ at hb
  rwa [if_pos hk, if_pos (h.kind ▸ hk)] at hb

theorem text (hk : t.kind.isSpelled) : t.text = t'.text := by
  rw [Token.text, Token.chars, h.bytes hk]
  rfl

theorem isKeyword (keyword : String) : t.isKeyword keyword = t'.isKeyword keyword := by
  unfold Token.isKeyword
  rw [← h.kind]
  by_cases hk : t.kind = .identifier
  · rw [h.bytes (by rw [hk]; rfl)]
  · rw [beq_eq_false_iff_ne.mpr hk, Bool.false_and, Bool.false_and]

theorem tokenRange : x.Like t.range t'.range := range fun hx => by rw [h.eq hx]

end

theorem exprRange {e e' : Expr} (h : x.Like e e') : x.Like e.range e'.range :=
  range fun hx => by rw [h.eq hx]

theorem literal {v v' : Value} (h : x.Like v v') {r r' : SourceRange} (hr : x.Like r r') :
    x.Like (Expr.literal v r) (.literal v' r') :=
  ⟨congrArg Tree.literal h.same, fun hx => by rw [h.eq hx, hr.eq hx]⟩

theorem placeholder {r r' : SourceRange} (hr : x.Like r r') :
    x.Like (Expr.placeholder r) (.placeholder r') := (refl _).literal hr

theorem template {es es' : List Expr} (h : x.Like es es') {r r' : SourceRange}
    (hr : x.Like r r') : x.Like (Expr.template es r) (.template es' r') := by
  refine ⟨?_, fun hx => by rw [h.eq hx, hr.eq hx]⟩
  change (Expr.template es r).tree = (Expr.template es' r').tree
  rw [Expr.tree, Expr.tree, Expr.treeAll_eq, Expr.treeAll_eq]
  exact congrArg Tree.template h.same

theorem attr {s s' : String} (h : s = s') {r r' : SourceRange} (hr : x.Like r r') :
    x.Like (TraversalStep.attr s r) (.attr s' r') :=
  ⟨congrArg Step.attr h, fun hx => by rw [h, hr.eq hx]⟩

theorem indexStep {v v' : Value} (h : x.Like v v') {r r' : SourceRange} (hr : x.Like r r') :
    x.Like (TraversalStep.index v r) (.index v' r') :=
  ⟨congrArg Step.index h.same, fun hx => by rw [h.eq hx, hr.eq hx]⟩

theorem step {e e' : Expr} (h : x.Like e e') {s s' : TraversalStep} (hs : x.Like s s') :
    x.Like (e.step s) (e'.step s') := by
  refine ⟨?_, fun hx => by rw [h.eq hx, hs.eq hx]⟩
  change (e.step s).tree = (e'.step s').tree
  rw [Expr.tree_step, Expr.tree_step]
  exact congrArg₂ Tree.step h.same hs.same

theorem staticKey? {e e' : Expr} (h : x.Like e e') : e.staticKey? = e'.staticKey? := by
  rw [← e.staticKey?_tree, ← e'.staticKey?_tree]
  exact congrArg Tree.staticKey? h.same

end Like

end Likeness

end HclSyntax
