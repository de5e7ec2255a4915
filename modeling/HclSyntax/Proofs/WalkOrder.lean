import HclSyntax.Proofs.Order.Body
import HclSyntax.Proofs.Ranges
import HclSyntax.Proofs.Unseen

namespace HclSyntax

open List (SublistForall₂ Forall₂)

namespace TokenList

variable {tokens : TokenList}

theorem isIn_start (tokens : TokenList) : tokens.start.cursor.IsIn tokens.splitLineComments :=
  ⟨rfl, rfl⟩

/-- Names are not empty. -/
def Named (tokens : TokenList) : Prop :=
  ∀ t ∈ tokens.toList, t.kind = .identifier → t.range.start.byte < t.range.stop.byte

instance (tokens : TokenList) : Decidable tokens.Named := inferInstanceAs (Decidable (∀ _ ∈ _, _))

/-- Of two tokens the first begins no later, and earlier if it is a name. -/
theorem Ordered.pairwise (h : tokens.splitLineComments.Ordered) (hn : tokens.Named) :
    tokens.splitLineComments.toList.Pairwise fun t u =>
      t.range.start.byte ≤ u.range.start.byte ∧
        (t.kind = .identifier → t.range.start.byte < u.range.start.byte) := by
  obtain ⟨-, hforward, hapart⟩ := h.inOrder
  rw [tokens.isIn_start.whole] at hforward hapart
  refine hapart.imp_of_mem fun {t u} ht _ htu => ?_
  rw [UInt32.le_iff_toNat_le, UInt32.lt_iff_toNat_lt]
  refine ⟨(hforward t ht).trans htu, fun hk => ?_⟩
  rcases kind_of_mem_splitLineComments ht with hc | hl | hmem
  · exact absurd (hk.symm.trans hc) (by decide)
  · exact absurd (hk.symm.trans hl) (by decide)
  · exact (UInt32.lt_iff_toNat_lt.mp (hn t hmem hk)).trans_le htu

/-- Splitting comments leaves the names where they are. -/
theorem sublistForall₂_unsplit {α : Type} {R : α → Token → Prop} {xs : List α}
    (h : SublistForall₂ R xs tokens.splitLineComments.toList)
    (hR : ∀ x t, R x t → t.kind = .identifier) : SublistForall₂ R xs tokens.toList := by
  have hnames := sublistForall₂_filter (f := (·.kind == .identifier)) h
    fun x t hx => beq_iff_eq.mpr (hR x t hx)
  rw [filter_splitLineComments (by rintro t (h | h) <;> simp [h])] at hnames
  exact sublistForall₂_sublist hnames List.filter_sublist

end TokenList

variable {tokens l : TokenList} {e x : Expr} {b : Body} {s : Stop}

/-- A body or an expression that keeps to the order of the tokens. -/
def Stop.InSource (l : TokenList) : Stop → Prop
  | .body b => b.InSource l
  | .expr (.expr e) => e.InSource l
  | _ => True

theorem Expr.InSource.walk (h : e.InSource l) (hx : .expr x ∈ e.walk) : x.InSource l :=
  sublistForall₂_of_sublist h (Expr.paths_sublist_of_mem_walk hx)

theorem Body.InSource.walk (h : b.InSource l) (hs : s ∈ b.walk) : s.InSource l := by
  induction h with
  | @mk b attributes blocks exprs inner ih =>
    rcases Body.mem_walk.mp hs with rfl | ⟨a, ha, hs⟩ | ⟨x, hx, hs⟩
    · exact .mk attributes blocks exprs inner
    · rcases List.mem_cons.mp hs with rfl | hs
      · trivial
      · obtain ⟨t, ht, rfl⟩ := List.mem_map.mp hs
        cases t with
        | expr x => exact (exprs a ha).walk ht
        | _ => trivial
    · rcases Block.mem_walk.mp hs with rfl | ⟨y, hy, hs⟩
      · trivial
      · exact ih x hx y hy hs

/-- Where the variable stands that a path begins with. -/
def Traversal.rootRange? : Traversal → Option SourceRange
  | .root _ r :: _ => some r
  | _ => none

/-- The variables of the expression stand in the order in which they are told. -/
def Expr.RootsInOrder (e : Expr) : Prop :=
  ∃ roots : List SourceRange, e.variables.map Traversal.rootRange? = roots.map some ∧
    roots.Pairwise fun r s => r.start.byte ≤ s.start.byte

theorem Traversal.BeginsAt.rootRange? {steps : Traversal} {t : Token} (h : steps.BeginsAt t) :
    steps.rootRange? = some t.range := by
  obtain ⟨rest, rfl⟩ := List.head?_eq_some_iff.mp h.2
  rfl

theorem Expr.InSource.rootsInOrder (he : e.InSource tokens.splitLineComments)
    (h : tokens.splitLineComments.Ordered) (hn : tokens.Named) : e.RootsInOrder := by
  obtain ⟨ts, hts, hsub⟩ :=
    List.sublistForall₂_iff.mp (sublistForall₂_of_sublist he e.variables_sublist)
  refine ⟨ts.map (·.range), ?_, ?_⟩
  · have hroots : Forall₂ (fun v t => Traversal.rootRange? v = some t.range) e.variables ts :=
      hts.imp fun _ _ => Traversal.BeginsAt.rootRange?
    rw [List.map_map, ← List.forall₂_eq_eq_eq, List.forall₂_map_left_iff,
      List.forall₂_map_right_iff]
    exact hroots
  · rw [List.pairwise_map]
    exact ((h.pairwise hn).sublist hsub).imp (·.1)

/-- However the body holds its attributes, a walk passes them in the order of the tokens that name
them, and then the blocks in the order of those that tell their types. -/
structure Body.WalksInOrder (tokens : TokenList) (b : Body) : Prop where
  attributes : SublistForall₂ Attribute.NamedBy b.attributes tokens.toList
  blocks : SublistForall₂ Block.NamedBy b.blocks tokens.toList
  walk (order : List Attribute) (h : order.Perm b.attributes) :
    { b with attributes := order }.walk = .body { b with attributes := order } ::
      b.attributes.flatMap Attribute.walk ++ b.blocks.flatMap Block.walk

theorem walkBlocks_eq (bs : List Block) : walkBlocks bs = bs.flatMap Block.walk := by
  induction bs with
  | nil => rfl
  | cons x bs ih => rw [walkBlocks, ih, List.flatMap_cons]

/-- Sorting by the starts of names brings back the order of the names. -/
theorem Body.sortedAttributes_of_perm {order : List Attribute} (h : order.Perm b.attributes)
    (hs : b.attributes.Pairwise fun x y => x.nameRange.start.byte < y.nameRange.start.byte) :
    Body.sortedAttributes { b with attributes := order } = b.attributes := by
  have hnodup : (b.attributes.map (·.nameRange.start.byte)).Nodup :=
    List.pairwise_map.mpr (hs.imp UInt32.ne_of_lt)
  have hsorted : (Body.sortedAttributes { b with attributes := order }).Pairwise
      fun x y : Attribute => x.nameRange.start.byte ≤ y.nameRange.start.byte := by
    refine (List.pairwise_mergeSort (fun x y z hxy hyz => ?_) (fun x y => ?_) order).imp
      of_decide_eq_true
    · exact decide_eq_true (UInt32.le_trans (of_decide_eq_true hxy) (of_decide_eq_true hyz))
    · simpa using UInt32.le_total _ _
  have hperm : (Body.sortedAttributes { b with attributes := order }).Perm b.attributes :=
    (List.mergeSort_perm _ _).trans h
  -- of two attributes whose names begin at the same place both are the same
  refine hperm.eq_of_pairwise (fun x y hx hy hxy hyx => ?_) hsorted (hs.imp UInt32.le_of_lt)
  exact List.inj_on_of_nodup_map hnodup (hperm.mem_iff.mp hx) hy (UInt32.le_antisymm hxy hyx)

theorem Body.InSource.walksInOrder (hb : b.InSource tokens.splitLineComments)
    (h : tokens.splitLineComments.Ordered) (hn : tokens.Named) : b.WalksInOrder tokens := by
  cases hb with
  | mk attributes blocks exprs inner =>
  have hnames : b.attributes.Pairwise
      fun x y => x.nameRange.start.byte < y.nameRange.start.byte :=
    sublistForall₂_pairwise attributes (h.pairwise hn) fun {x y t u} hx hy htu => by
      rw [hx.2.2, hy.2.2]
      exact htu.2 hx.1
  refine ⟨TokenList.sublistForall₂_unsplit attributes fun _ _ h => h.1,
    TokenList.sublistForall₂_unsplit blocks fun _ _ h => h.1, fun order hperm => ?_⟩
  rw [Body.walk, Body.sortedAttributes_of_perm hperm hnames, walkBlocks_eq]

/-- Walks keep to the order of the source, and so do the variables of an expression. -/
theorem walks_in_source_order (tokens : TokenList) (closer : TokenKind)
    (h : tokens.splitLineComments.Ordered) (hn : tokens.Named) :
    (∀ x, .expr (.expr x) ∈ (parseBody tokens closer).1.walk ∨
      .expr x ∈ (parseExpression tokens).1.walk ∨ .expr x ∈ (parseTemplate tokens).1.walk →
        x.RootsInOrder) ∧
    ∀ b, .body b ∈ (parseBody tokens closer).1.walk → b.WalksInOrder tokens := by
  have hin := tokens.isIn_start
  obtain ⟨_, hbody⟩ := (Parser.inSource_body closer hin).run
  obtain ⟨_, hexpression⟩ := (Parser.inSource_wholeExpression hin).run
  obtain ⟨_, htemplate⟩ := (Parser.inSource_wholeTemplate hin).run
  refine ⟨fun x hx => ?_, fun b hb => (hbody.walk hb : b.InSource _).walksInOrder h hn⟩
  have hsource : x.InSource tokens.splitLineComments := by
    rcases hx with hx | hx | hx
    · exact hbody.walk hx
    · exact hexpression.walk hx
    · exact htemplate.walk hx
  exact hsource.rootsInOrder h hn

/-- Two attributes, not in the order of their names, and a block: `b = y + x`, `a = z` and `c`. -/
def placedItems : TokenList where
  body := [.placed .identifier [0x62] 1 1 0, .placed .assign [0x3D] 1 3 2,
    .placed .identifier [0x79] 1 5 4, .placed .plus [0x2B] 1 7 6, .placed .identifier [0x78] 1 9 8,
    .placed .newline [0x0A] 1 10 9,
    .placed .identifier [0x61] 2 1 10, .placed .assign [0x3D] 2 3 12,
    .placed .identifier [0x7A] 2 5 14, .placed .newline [0x0A] 2 6 15,
    .placed .identifier [0x63] 3 1 16, .placed .openBrace [0x7B] 3 3 18,
    .placed .closeBrace [0x7D] 3 4 19, .placed .newline [0x0A] 3 5 20]
  eof := .placed .eof [] 4 1 21
  eof_kind := @rfl _ TokenKind.eof

theorem placedItems_walk :
    placedItems.splitLineComments.Ordered ∧ placedItems.Named ∧
      (parseBody placedItems .eof).1.attributes.map (·.expr.variables.length) = [2, 1] ∧
      (parseBody placedItems .eof).1.blocks.length = 1 ∧
      (parseBody placedItems .eof).1.WalksInOrder placedItems ∧
      ∀ a ∈ (parseBody placedItems .eof).1.attributes, a.expr.RootsInOrder := by
  have h : placedItems.splitLineComments.Ordered := by decide
  have hn : placedItems.Named := by decide
  obtain ⟨hroots, hbodies⟩ := walks_in_source_order placedItems .eof h hn
  refine ⟨h, hn, by decide +kernel, by decide +kernel, hbodies _ (Body.mem_walk.mpr (.inl rfl)),
    fun a ha => hroots _ (.inl (Body.mem_walk.mpr (.inr (.inl ⟨a, ha, ?_⟩))))⟩
  exact List.mem_cons_of_mem _ (List.mem_map_of_mem (Expr.expr_mem_walk.mpr (.inl rfl)))

end HclSyntax
