import HclSyntax.Proofs.Normal.Expression

namespace HclSyntax

/-- No two attributes share a name, so that all are found under their own. -/
structure NormalAttributes (attributes : List Attribute) : Prop where
  expr : ∀ a ∈ attributes, Expr.Normal false a.expr
  found : ∀ a ∈ attributes, attributes.find? (·.name == a.name) = some a

/-- All bodies and expressions inside are in normal form, and every label has a range. -/
inductive Body.Normal : Body → Prop
  | mk {b : Body} (attributes : NormalAttributes b.attributes)
    (labels : ∀ x ∈ b.blocks, x.labelRanges.length = x.labels.length)
    (nested : ∀ x ∈ b.blocks, ∀ y ∈ x.body, Body.Normal y) : Body.Normal b

def Block.Normal (b : Block) : Prop :=
  b.labelRanges.length = b.labels.length ∧ ∀ y ∈ b.body, y.Normal

theorem Body.normal_of_items {b : Body} (ha : NormalAttributes b.attributes)
    (hb : ∀ x ∈ b.blocks, x.Normal) : b.Normal :=
  .mk ha (fun x hx => (hb x hx).1) fun x hx => (hb x hx).2

theorem normalAttributes_nil : NormalAttributes [] := ⟨by simp, by simp⟩

theorem NormalAttributes.concat {attributes : List Attribute} {a : Attribute}
    (h : NormalAttributes attributes) (ha : Expr.Normal false a.expr)
    (hn : attributes.find? (·.name == a.name) = none) : NormalAttributes (attributes ++ [a]) := by
  constructor
  · simpa [or_imp, forall_and] using ⟨h.expr, ha⟩
  · intro x hx
    rw [List.find?_append]
    rcases List.mem_append.mp hx with hx | hx
    · rw [h.found x hx, Option.some_or]
    · obtain rfl := List.mem_singleton.mp hx
      simp [hn]

namespace Parser

theorem normal_attributeValue (name equals : Token) (singleLine : Bool) :
    (attributeValue name equals singleLine).Answers fun a => Expr.Normal false a.expr := by
  refine Answers.track_seq givesNormal_expression fun e lost h => answers_bind fun stop => ?_
  dsimp only
  repeat' split
  · exact answers_pure h
  all_goals exact answers_bind fun _ => answers_pure h

theorem normal_header (name : Token) :
    (iterate (headerStep name) ⟨[], [], none⟩).Answers fun h =>
      h.labelRanges.length = h.labels.length := by
  refine Answers.iterate (fun h hl => answers_bind fun t => ?_) rfl
  split
  · exact answers_bind fun _ => answers_pure hl
  · refine answers_bind fun _ => answers_bind fun r => ?_
    obtain ⟨⟨label, range⟩, reported⟩ := r
    have hl' : (h.labelRanges ++ [range]).length = (h.labels ++ [label]).length := by simpa using hl
    dsimp only
    split
    · exact answers_bind fun _ => answers_pure hl'
    · exact answers_pure hl'
  · exact answers_bind fun _ => answers_bind fun _ => answers_pure hl

theorem normal_singleLineBody : singleLineBody.Answers fun b => ∀ y ∈ b, y.Normal := by
  refine answers_bind fun name => ?_
  split
  · exact answers_bind fun _ => answers_bind fun _ => answers_pure (by simp)
  refine answers_bind fun next => ?_
  split
  · refine answers_bind fun _ => (normal_attributeValue name next true).seq fun a ha =>
      answers_bind fun _ => answers_pure ?_
    simpa using Body.normal_of_items (b := ⟨[a], [], a.range, a.range.endPoint⟩)
      (normalAttributes_nil.concat ha rfl) (by simp)
  all_goals exact answers_bind fun _ => answers_bind fun _ => answers_pure (by simp)

section
variable {nested : Parser Body} (hn : nested.Answers Body.Normal)
include hn

theorem normal_block (name : Token) : (block nested name).Answers Block.Normal := by
  have hbody : (blockBody nested).Answers fun b => ∀ y ∈ b, y.Normal := by
    have h : Answers (do return some (← nested)) fun b => ∀ y ∈ b, y.Normal :=
      hn.seq fun y hy => answers_pure (by simpa using hy)
    refine answers_bind fun k => ?_
    split
    · exact h
    · exact h
    · exact h
    · exact normal_singleLineBody
  refine (normal_header name).seq fun h hl => ?_
  split
  · exact answers_pure ⟨hl, by simp⟩
  refine hbody.seq fun body hb => answers_bind fun close => answers_bind fun _ =>
    answers_pure ⟨hl, ?_⟩
  cases body with
  | none =>
    simpa using Body.normal_of_items (b := .empty _) normalAttributes_nil (by simp [Body.empty])
  | some y => simpa using hb

/-- What a body has so far is in normal form. -/
def ItemsNormal (items : Items) : Prop :=
  NormalAttributes items.attributes ∧ ∀ x ∈ items.blocks, x.Normal

omit hn in
theorem normal_define {items : Items} {a : Attribute} (h : ItemsNormal items)
    (ha : Expr.Normal false a.expr) : (items.define a).Answers ItemsNormal := by
  unfold Items.define
  split
  · rename_i hnew
    exact answers_pure ⟨h.1.concat ha hnew, h.2⟩
  · exact answers_bind fun _ => answers_pure h

theorem normal_item (name : Token) {items : Items} (h : ItemsNormal items) :
    (item nested name items).Answers ItemsNormal := by
  have hblock : Answers (do
      let b ← block nested name
      return { items with blocks := items.blocks ++ [b] }) ItemsNormal :=
    (normal_block hn name).seq fun b hb =>
      answers_pure ⟨h.1, by simpa [or_imp, forall_and] using ⟨h.2, hb⟩⟩
  refine answers_bind fun next => ?_
  split
  · exact answers_bind fun _ => (normal_attributeValue name next false).seq fun a ha =>
      normal_define h ha
  · exact hblock
  · exact hblock
  · exact answers_bind fun _ => answers_bind fun _ => answers_pure h

theorem normal_bodyStep (closer : TokenKind) (start : SourceRange) {items : Items}
    (h : ItemsNormal items) :
    (bodyStep nested closer start items).Answers fun r => ItemsNormal r.1 := by
  refine answers_bind fun next => ?_
  split
  · exact answers_pure h
  split
  · exact answers_pure h
  · exact (normal_item hn next h).seq fun i hi => answers_pure hi
  · exact answers_bind fun _ => answers_bind fun _ => answers_pure h

theorem normal_bodyWith (closer : TokenKind) : (bodyWith nested closer).Answers Body.Normal := by
  refine answers_bind fun start => (Answers.iterate (fun _ h => normal_bodyStep hn closer start h)
    ⟨normalAttributes_nil, by simp⟩).seq fun items h => answers_pure ?_
  exact Body.normal_of_items h.1 h.2

end

theorem normal_bodyFor (depth : Nat) (closer : TokenKind) :
    (bodyFor depth closer).Answers Body.Normal := by
  induction depth generalizing closer with
  | zero => exact answers_bind fun e =>
      answers_pure (Body.normal_of_items normalAttributes_nil (by simp [Body.empty]))
  | succ depth ih => exact normal_bodyWith (ih .closeBrace) closer

theorem normal_body (closer : TokenKind) : (body closer).Answers Body.Normal :=
  fun s => normal_bodyFor (s.cursor.remaining + 1) closer s

theorem givesNormal_wholeExpression : GivesNormal wholeExpression := by
  refine Answers.withNewlines (Answers.seq givesNormal_expression fun e h => ?_) false
  refine answers_bind fun next => ?_
  split
  · exact answers_bind fun _ => answers_pure h
  · exact answers_pure h

theorem givesNormal_wholeTemplate : GivesNormal wholeTemplate :=
  answers_bind fun _ => givesNormal_template givesNormal_expression _ _

theorem Answers.run {α : Type} {p : Parser α} {Q : α → Prop} (h : p.Answers Q)
    (tokens : TokenList) : Q (p.run tokens).1 := h _

end Parser

theorem Body.Normal.attribute {b : Body} (h : b.Normal) :
    ∀ a ∈ b.allAttributes, Expr.Normal false a.expr := by
  induction h with
  | mk attributes labels nested ih =>
    intro a ha
    obtain ha | ⟨x, hx, y, hy, ha⟩ := Body.mem_allAttributes.mp ha
    · exact attributes.expr a ha
    · exact ih x hx y hy a ha

/-- Every tree is in normal form, that of a malformed source included, and every splat in it has
its element just once. -/
theorem trees_are_normal (tokens : TokenList) (closer : TokenKind) :
    (parseBody tokens closer).1.Normal ∧ (parseExpression tokens).1.Normal false ∧
      (parseTemplate tokens).1.Normal false ∧
      (∀ a ∈ (parseBody tokens closer).1.allAttributes, a.expr.ElementsPaired) ∧
      (parseExpression tokens).1.ElementsPaired ∧ (parseTemplate tokens).1.ElementsPaired := by
  have hbody := (Parser.normal_body closer).run tokens
  have hexpression := Parser.givesNormal_wholeExpression.run tokens
  have htemplate := Parser.givesNormal_wholeTemplate.run tokens
  exact ⟨hbody, hexpression, htemplate, fun a ha => (hbody.attribute a ha).elementsPaired,
    hexpression.elementsPaired, htemplate.elementsPaired⟩

end HclSyntax
