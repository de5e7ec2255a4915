import HclSyntax.Proofs.Order.Expression

namespace HclSyntax

open List (SublistForall₂)

/-- The paths in the expression have their tokens in the list, in the same order. -/
def Expr.InSource (l : TokenList) (e : Expr) : Prop :=
  SublistForall₂ Traversal.BeginsAt e.paths l.toList

/-- The items of the body have their tokens in the list, in the same order, and so has everything
in them. -/
inductive Body.InSource (l : TokenList) : Body → Prop
  | mk {b : Body} (attributes : SublistForall₂ Attribute.NamedBy b.attributes l.toList)
    (blocks : SublistForall₂ Block.NamedBy b.blocks l.toList)
    (exprs : ∀ a ∈ b.attributes, a.expr.InSource l)
    (inner : ∀ x ∈ b.blocks, ∀ y ∈ x.body, Body.InSource l y) : Body.InSource l b

theorem Body.inSource_empty {l : TokenList} (r : SourceRange) : (Body.empty r).InSource l :=
  .mk .nil .nil (by simp [Body.empty]) (by simp [Body.empty])

namespace Parser

open Cursor (Met)

variable {l : TokenList} {c c' : Cursor} {items : Items}

/-- The items of a body that were read so far. -/
structure Items.Met (l : TokenList) (items : Items) (c : Cursor) : Prop where
  attributes : c.Met l Attribute.NamedBy items.attributes
  blocks : c.Met l Block.NamedBy items.blocks
  exprs : ∀ a ∈ items.attributes, a.expr.InSource l
  inner : ∀ x ∈ items.blocks, ∀ y ∈ x.body, y.InSource l

theorem Items.Met.reaches (h : items.Met l c) (hr : c.Reaches c') : items.Met l c' :=
  ⟨h.attributes.reaches hr, h.blocks.reaches hr, h.exprs, h.inner⟩

theorem Items.Met.inSource {b : Body} (h : items.Met l c) (ha : b.attributes = items.attributes)
    (hb : b.blocks = items.blocks) : b.InSource l :=
  .mk (ha ▸ h.attributes.inSource) (hb ▸ h.blocks.inSource) (ha ▸ h.exprs) (hb ▸ h.inner)

section
variable {α β : Type} {p : Parser α} {f : α → Parser β} {P : α → Cursor → Prop}
  {Q : β → Cursor → Prop}

/-- A parser that moves forward gets to a later place. -/
theorem Ends.reaches_seq (h : Ends p c P) (hp : Framed p)
    (hf : ∀ a c', P a c' → c.Reaches c' → Ends (f a) c' Q) : Ends (p >>= f) c Q :=
  Arrives.seq (P := fun a c' => P a c' ∧ c.Reaches c') (fun b hd => ⟨h b hd, hp ⟨c, b⟩⟩)
    fun a c' h => hf a c' h.1 h.2

theorem Framed.reaches_seq (hp : Framed p) (hf : ∀ a c', c.Reaches c' → Ends (f a) c' Q) :
    Ends (p >>= f) c Q :=
  Ends.reaches_seq (P := fun _ _ => True) (fun _ _ => trivial) hp fun a c' _ hr => hf a c' hr

/-- Wherever the first parser gets, the second has an answer of its own. -/
theorem ends_any_bind (hf : ∀ a c', Ends (f a) c' Q) : Ends (p >>= f) c Q :=
  Arrives.seq (P := fun _ _ => True) (fun _ _ => trivial) fun a c' _ => hf a c'

end

theorem named_attributeValue {name equals : Token} (singleLine : Bool) (h : c.IsIn l)
    (hk : name.kind = .identifier) : Ends (attributeValue name equals singleLine) c
      fun a _ => a.NamedBy name ∧ a.expr.InSource l := by
  have hnone : Told l [] c := .of_isIn h
  refine (tells_expression hnone).track_seq fun x lost c₁ h₁ => ends_previousRange_bind ?_
  let a : Attribute :=
    ⟨name.text, x, .between name.range c₁.previousRange, name.range, equals.range⟩
  have hdone {c' : Cursor} : Ends (pure a) c' fun a _ => a.NamedBy name ∧ a.expr.InSource l :=
    arrives_pure ⟨⟨hk, rfl, rfl⟩, h₁.inSource⟩
  dsimp only
  split
  · exact hdone
  · split <;> exact ends_any_bind fun _ _ => hdone

/-- The only attribute of a body on a single line. -/
theorem inSource_singleLineBody (h : c.IsIn l) :
    Ends singleLineBody c fun r _ => ∀ x ∈ r, x.InSource l := by
  have hnone {p : Parser Unit} : Ends (p >>= fun _ => pure (none : Option Body)) c.advance
      fun r _ => ∀ x ∈ r, x.InSource l := ends_any_bind fun _ _ => arrives_pure (by simp)
  refine arrives_read_bind ?_
  split
  · exact (still_reportFirst _ _ _).seq fun _ => hnone
  rename_i hk
  have hk := Decidable.of_not_not hk
  refine arrives_peek_bind ?_
  split
  · refine arrives_skip_bind ((named_attributeValue true h.moves.moves hk).seq
      fun a c₁ ⟨ha, hexpr⟩ => ends_any_bind fun _ _ => arrives_pure fun x hx => ?_)
    obtain rfl := Option.mem_some.mp hx
    have hmet := (Met.of_isIn h).concat (by rw [hk]; decide) ha
    exact .mk hmet.inSource .nil (by simpa using hexpr) (by simp)
  · exact (still_report _ _ _).seq fun _ => hnone
  · exact (still_report _ _ _).seq fun _ => hnone
  · exact (still_report _ _ _).seq fun _ => hnone
  · exact (still_report _ _ _).seq fun _ => hnone

section
variable {nested : Parser Body} (hn : ∀ c, c.IsIn l → Ends nested c fun b _ => b.InSource l)
  (hf : Framed nested)
include hn

theorem inSource_blockBody (h : c.IsIn l) :
    Ends (blockBody nested) c fun r _ => ∀ x ∈ r, x.InSource l := by
  have hnested : Ends (nested >>= fun b => pure (some b)) c fun r _ => ∀ x ∈ r, x.InSource l :=
    (hn c h).seq fun b c' hb => arrives_pure fun x hx => Option.mem_some.mp hx ▸ hb
  refine arrives_peekKind_bind ?_
  split
  · exact hnested
  · exact hnested
  · exact hnested
  · exact inSource_singleLineBody h

theorem named_block {name : Token} (h : c.IsIn l) (hk : name.kind = .identifier) :
    Ends (block nested name) c fun x _ => x.NamedBy name ∧ ∀ y ∈ x.body, y.InSource l := by
  refine (framed.iterate (framed.headerStep name) _).reaches_seq fun header c₁ hr => ?_
  split
  · exact arrives_pure ⟨⟨hk, rfl, rfl⟩, by simp⟩
  rename_i brace _
  refine (inSource_blockBody hn (h.reaches hr)).seq fun body c₂ hbody =>
    ends_previousRange_bind ?_
  refine ends_any_bind fun _ c₃ => arrives_pure ⟨⟨hk, rfl, rfl⟩, fun y hy => ?_⟩
  obtain rfl := Option.mem_some.mp hy
  cases body with
  | none => exact Body.inSource_empty _
  | some x => exact hbody x rfl

include hf

/-- What an identifier begins comes behind all that was read before. -/
theorem met_item (h : items.Met l c) (hk : c.peek.kind = .identifier) :
    Ends (item nested c.peek items) c.advance fun r c' => r.Met l c' := by
  have hne : c.peek.kind ≠ .eof := by rw [hk]; decide
  have hin := h.attributes.toIsIn.moves
  have hkept {c' : Cursor} (hr : c.advance.Reaches c') : items.Met l c' :=
    h.reaches (c.reaches_advance.trans hr)
  have hblock : Ends (block nested c.peek >>= fun x =>
      pure { items with blocks := items.blocks ++ [x] }) c.advance fun r c' => r.Met l c' := by
    refine (named_block hn hin hk).reaches_seq (framed.block hf c.peek)
      fun x c₁ ⟨hx, hinner⟩ hr => arrives_pure ?_
    exact
      { attributes := (hkept hr).attributes
        blocks := (h.blocks.concat hne hx).reaches hr
        exprs := h.exprs
        inner := by simpa [or_imp, forall_and] using ⟨h.inner, hinner⟩ }
  refine arrives_peek_bind ?_
  split
  · refine arrives_skip_bind ((named_attributeValue false hin.moves hk).reaches_seq
      (framed.attributeValue _ _ _) fun a c₁ ⟨ha, hexpr⟩ hr => ?_)
    have hr := c.advance.reaches_advance.trans hr
    unfold Items.define
    split
    · exact arrives_pure
        { attributes := (h.attributes.concat hne ha).reaches hr
          blocks := (hkept hr).blocks
          exprs := by simpa [or_imp, forall_and] using ⟨h.exprs, hexpr⟩
          inner := h.inner }
    · exact (still_report _ _ _).seq fun _ => arrives_pure (hkept hr)
  · exact hblock
  · exact hblock
  · exact framed.skipItem.reaches_seq fun _ _ hr =>
      (still_report _ _ _).seq fun _ => arrives_pure (hkept hr)

theorem met_bodyStep (closer : TokenKind) (start : SourceRange) (h : items.Met l c) :
    Ends (bodyStep nested closer start items) c fun r c' => r.1.Met l c' := by
  have hstop {c' : Cursor} (r : SourceRange) (h : items.Met l c') :
      ({ items with stop := r } : Items).Met l c' := ⟨h.attributes, h.blocks, h.exprs, h.inner⟩
  have hadvance := h.reaches c.reaches_advance
  refine arrives_read_bind ?_
  split
  · exact arrives_pure (hstop _ hadvance)
  split
  · exact arrives_pure hadvance
  · rename_i hk
    exact (met_item hn hf h hk).seq fun _ _ h => arrives_pure h
  · exact (still_reportItem _ _).seq fun _ =>
      (framed.skipPast _).reaches_seq fun _ _ hr => arrives_pure (hstop _ (hadvance.reaches hr))

theorem inSource_bodyWith (closer : TokenKind) (h : c.IsIn l) :
    Ends (bodyWith nested closer) c fun b _ => b.InSource l := by
  refine ends_previousRange_bind (Arrives.seq (P := fun items c' => Items.Met l items c') ?_
    fun items c' h => arrives_pure (h.inSource rfl rfl))
  exact ends_iterate (advances_bodyStep hf closer _) (met_bodyStep hn hf closer _)
    (h.eof ▸ l.eof_kind) ⟨.of_isIn h, .of_isIn h, by simp, by simp⟩

end

/-- Bodies keep to the order of the source, at any depth. -/
theorem inSource_bodyFor (depth : Nat) (closer : TokenKind) (c : Cursor) (h : c.IsIn l) :
    Ends (bodyFor depth closer) c fun b _ => b.InSource l := by
  induction depth generalizing closer c with
  | zero =>
    exact ends_any_bind fun _ _ => arrives_pure (Body.inSource_empty _)
  | succ depth ih => exact inSource_bodyWith (ih .closeBrace) (framed.bodyFor depth _) closer h

theorem inSource_body (closer : TokenKind) (h : c.IsIn l) :
    Ends (body closer) c fun b _ => b.InSource l :=
  fun b hd => inSource_bodyFor (c.remaining + 1) closer c h b hd

theorem inSource_wholeExpression (h : c.IsIn l) :
    Ends wholeExpression c fun e _ => e.InSource l := by
  have hnone : Told l [] c := .of_isIn h
  refine Ends.withNewlines ((tells_expression (hnone.enter false)).seq fun e c' h' =>
    arrives_peek_bind ?_)
  split
  · exact (still_reportFirst _ _ _).seq fun _ => arrives_pure h'.inSource
  · exact arrives_pure h'.inSource

theorem inSource_wholeTemplate (h : c.IsIn l) :
    Ends wholeTemplate c fun e _ => e.InSource l := by
  have hnone : Told l [] c := .of_isIn h
  exact arrives_peek_bind ((tells_template tells_expression framed.expression _ _ hnone).mono
    fun _ _ h' => h'.inSource)

end Parser

end HclSyntax
