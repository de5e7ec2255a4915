import HclSyntax.Proofs.Complete.Suffix
import HclSyntax.Proofs.Complete.Template

namespace HclSyntax.Parser

variable {g : Grammar} {nl : Bool} {ts ts₁ ts₂ ts₃ ts₄ ts₅ ts₆ : List Token} {e : Tree}
  {es : List Tree}

/-- A term is read; of a name, no call may follow. -/
def ReadsTerm (g : Grammar) (nl : Bool) (e : Tree) (ts : List Token) : Prop :=
  ReadsTo (· ≠ .openParen) (term g) nl e ts

theorem readsTerm_number {t : Token} {n : Number} (hk : t.kind = .number)
    (hn : Number.parse t.text = .ok n) (ht : Sees nl t ts) :
    ReadsTerm g nl (.literal (.number n)) ts := by
  intro c hf _
  obtain ⟨hp, ha⟩ := hf.sees ht
  refine ⟨by rw [hp, hk]; rfl, .literal (.number n) t.range, ?_, rfl⟩
  unfold term
  simp only [reads_peek_bind, hp, hk, reads_skip_bind, ha]
  exact (reads_numberValue hn).bind (reads_pure.mpr ⟨rfl, rfl⟩)

theorem readsTerm_name {text : String} (h : Name nl text ts) :
    ReadsTerm g nl (.name text) ts := by
  intro c hf hstop
  obtain ⟨hk, rfl, ha⟩ := hf.name h
  refine ⟨by rw [hk]; rfl, nameExpr c.peek, ?_, tree_nameExpr _⟩
  unfold term nameOrCall
  simp only [reads_peek_bind, hk, reads_read_bind, ha, reads_peekKind_bind, hstop, if_false,
    reads_pure, and_self]

theorem readsTerm_parens (ho : Mark nl .openParen ts₁)
    (h : ReadsTo StopsExpression (g .expression) false e ts₂)
    (hc : Mark false .closeParen ts₃) : ReadsTerm g nl e (ts₁ ++ ts₂ ++ ts₃) := by
  intro c hf _
  rw [List.append_assoc] at hf ⊢
  obtain ⟨hk, ha⟩ := hf.left.mark ho
  have hf' := hf.right.enter false
  obtain ⟨hk₃, ha₃⟩ := hf'.right.mark hc
  obtain ⟨-, x, hx, htree⟩ := h _ hf'.left (by rw [hk₃]; decide)
  rw [Cursor.past_past] at ha₃
  have hclose : (closeParenthesis c.peek).Reads (((c.past ts₁).enter false).past ts₂) ()
      (((c.past ts₁).enter false).past (ts₂ ++ ts₃)) := by
    unfold closeParenthesis
    simp only [reads_peek_bind, hk₃, ne_eq, not_true_eq_false, if_false]
    exact reads_skip.mpr ha₃
  refine ⟨by rw [hk]; rfl, x, ?_, htree⟩
  unfold term parenthesized
  simp only [reads_peek_bind, hk, reads_read_bind, ha]
  refine Reads.within (hx.observe_bind ?_)
  simp only [Bool.false_eq_true, if_false]
  exact hclose.bind (reads_pure.mpr ⟨rfl, rfl⟩)

/-- A call is read if its arguments are. -/
theorem readsTerm_of_arguments {f : String} {expand : Bool} (hf : Name nl f ts₁)
    (ho : Mark nl .openParen ts₂)
    (hargs : ∀ c : Cursor, c.Faces false ts₃ → ∃ xs : List Expr, xs.map Expr.tree = es ∧
      ∀ name opening, (iterate (argumentStep (g .expression) name opening) ⟨[], false⟩).Reads c
        ⟨xs, expand⟩ (c.past ts₃)) :
    ReadsTerm g nl (.call f es expand) (ts₁ ++ ts₂ ++ ts₃) := by
  intro c hfaces _
  obtain ⟨hk, rfl, ha⟩ := hfaces.left.left.name hf
  obtain ⟨hk₂, ha₂⟩ := hfaces.left.right.mark ho
  obtain ⟨xs, hxs, hread⟩ := hargs _ (hfaces.right.enter false)
  rw [Cursor.past_past] at ha₂
  refine ⟨by rw [hk]; rfl, .call c.peek.text xs expand c.peek.range (c.past ts₁).peek.range
    (c.past (ts₁ ++ ts₂ ++ ts₃)).previousRange
    (.between c.peek.range (c.past (ts₁ ++ ts₂ ++ ts₃)).previousRange), ?_, by simp [Expr.tree, hxs]⟩
  unfold term nameOrCall
  simp only [reads_peek_bind, hk, reads_read_bind, ha, reads_peekKind_bind, hk₂, if_true, ha₂]
  unfold Parser.call
  refine (hread c.peek (c.past ts₁).peek).withNewlines.bind ?_
  simp only [Cursor.leave_past_enter, Cursor.past_past, reads_previousRange_bind, reads_pure, and_self]

theorem readsTerm_tuple (ho : Mark nl .openBracket ts₁)
    (hes : ReadsSequence (g .expression) es ts₂)
    (hfor : ¬ Begins false (·.isKeyword "for") ts₂) (hc : Mark false .closeBracket ts₃) :
    ReadsTerm g nl (.tuple es) (ts₁ ++ ts₂ ++ ts₃) := by
  intro c hf _
  rw [List.append_assoc] at hf ⊢
  obtain ⟨hk, ha⟩ := hf.left.mark ho
  have hf' := hf.right.enter false
  obtain ⟨xs, hxs, hread⟩ := (hes _ ts₃ hf').1 hc
  have hno : ((c.past ts₁).enter false).peek.isKeyword "for" = false := by
    obtain ⟨t, hkind, ht⟩ := hc
    refine Bool.eq_false_iff.mpr fun hp => hfor (hf'.begins ht ?_ hp)
    simp [Token.isKeyword, hkind]
  refine ⟨by rw [hk]; rfl, .tuple xs c.peek.range (.between c.peek.range
    (((c.past ts₁).enter false).past (ts₂ ++ ts₃)).previousRange), ?_, by simp [Expr.tree, hxs]⟩
  unfold term
  simp only [reads_peek_bind, hk, reads_skip_bind, ha]
  unfold Parser.tuple
  refine Reads.within ?_
  simp only [reads_atKeyword_bind, hno, Bool.false_eq_true, if_false]
  refine (hread c.peek).bind ?_
  simp only [reads_previousRange_bind, reads_pure, and_self]

theorem readsTerm_object {xs : List (Tree × Tree)} (ho : Mark nl .openBrace ts₁)
    (hxs : ReadsFields (g .expression) xs ts₂)
    (hfor : ¬ Begins true (·.isKeyword "for") ts₂) (hc : Mark true .closeBrace ts₃) :
    ReadsTerm g nl (.object xs) (ts₁ ++ ts₂ ++ ts₃) := by
  intro c hf _
  rw [List.append_assoc] at hf ⊢
  obtain ⟨hk, ha⟩ := hf.left.mark ho
  have hf' := hf.right.enter true
  obtain ⟨items, hitems, hread⟩ := hxs _ ts₃ hf' hc
  have hno : ((c.past ts₁).enter true).peek.isKeyword "for" = false := by
    obtain ⟨t, hkind, ht⟩ := hc
    refine Bool.eq_false_iff.mpr fun hp => hfor (hf'.begins ht ?_ hp)
    simp [Token.isKeyword, hkind]
  refine ⟨by rw [hk]; rfl, .object items c.peek.range (.between c.peek.range
    (((c.past ts₁).enter true).past (ts₂ ++ ts₃)).previousRange), ?_, by simp [Expr.tree, hitems]⟩
  unfold term
  simp only [reads_peek_bind, hk, reads_skip_bind, ha]
  unfold Parser.object
  refine Reads.within ?_
  simp only [reads_atKeyword_bind, hno, Bool.false_eq_true, if_false]
  refine (hread c.peek).bind ?_
  simp only [reads_previousRange_bind, reads_pure, and_self]

section
variable {keyVar : Option String} {valueVar : String} {coll value : Tree} {key cond : Option Tree}
  {group : Bool}

theorem readsTerm_tupleFor (ho : Mark nl .openBracket ts₁) (hfor : Keyword false "for" ts₂)
    (hb : Binders keyVar valueVar ts₃)
    (hcoll : ReadsTo StopsExpression (g .expression) false coll ts₄)
    (hcolon : Mark false .colon ts₅)
    (hr : ReadsResult (g .expression) .openBracket key value cond group ts₆) :
    ReadsTerm g nl (.comprehension keyVar valueVar coll key value cond group)
      (ts₁ ++ (ts₂ ++ ts₃ ++ ts₄ ++ ts₅ ++ ts₆)) := by
  intro c hf _
  obtain ⟨hk, ha⟩ := hf.left.mark ho
  have hf' := hf.right.enter false
  have hw := (hf'.left.left.left.left.keyword hfor).1
  obtain ⟨x, hx, htree⟩ := reads_comprehension (o := c.peek) hfor hb hcoll hcolon
    (by rwa [hk]) hf'
  refine ⟨by rw [hk]; rfl, x, ?_, htree⟩
  unfold term
  simp only [reads_peek_bind, hk, reads_skip_bind, ha]
  unfold Parser.tuple
  refine Reads.within ?_
  simp only [reads_atKeyword_bind, hw, if_true]
  exact hx

theorem readsTerm_objectFor (ho : Mark nl .openBrace ts₁) (hfor : Keyword true "for" ts₂)
    (hb : Binders keyVar valueVar ts₃)
    (hcoll : ReadsTo StopsExpression (g .expression) false coll ts₄)
    (hcolon : Mark false .colon ts₅)
    (hr : ReadsResult (g .expression) .openBrace key value cond group ts₆) :
    ReadsTerm g nl (.comprehension keyVar valueVar coll key value cond group)
      (ts₁ ++ (ts₂ ++ ts₃ ++ ts₄ ++ ts₅ ++ ts₆)) := by
  intro c hf _
  obtain ⟨hk, ha⟩ := hf.left.mark ho
  have hf' := hf.right.enter true
  have hw := (hf'.left.left.left.left.keyword hfor).1
  obtain ⟨x, hx, htree⟩ := reads_comprehension (o := c.peek) hfor hb hcoll hcolon
    (by rwa [hk]) hf'
  refine ⟨by rw [hk]; rfl, x, ?_, htree⟩
  unfold term
  simp only [reads_peek_bind, hk, reads_skip_bind, ha]
  unfold Parser.object
  refine Reads.within ?_
  simp only [reads_atKeyword_bind, hw, if_true]
  exact hx

end

theorem readsTerm_quoted {t : Token} {raws : List RawPiece}
    (hk : t.kind = .openQuote ∨ t.kind = .openHeredoc) (ho : Sees nl t ts₁)
    (hp : ReadsParts (g .expression) nl raws ts₂) (hn : Nested (RawPiece.pieces raws) es)
    (hc : Mark nl t.kind.opposite ts₃) :
    ReadsTerm g nl (.ofPieces (RawPiece.pieces raws) es) (ts₁ ++ ts₂ ++ ts₃) := by
  intro c hf _
  rw [List.append_assoc] at hf ⊢
  obtain ⟨hpeek, ha⟩ := hf.left.sees ho
  have hcl : ClosesTemplate t.kind.opposite := by
    rcases hk with h | h <;> rw [h] <;> exact ⟨by decide, by decide, by decide, by decide⟩
  obtain ⟨x, hx, htree⟩ := hp.template hcl hc hn hf.right t.range
  rw [Cursor.past_past] at hx
  refine ⟨by rcases hk with h | h <;> rw [hpeek, h] <;> rfl, x, ?_, htree⟩
  unfold term
  rcases hk with h | h
  · simp only [reads_peek_bind, hpeek, h, reads_skip_bind, ha]
    exact hx
  · simp only [reads_peek_bind, hpeek, h, reads_skip_bind, ha]
    exact hx

theorem readsOperand_suffixed {base : Tree} {f : Further} (hb : ReadsTerm g nl base ts₁)
    (hs : ReadsFurther (g .expression) (fun each => g (.suffixes each)) base f nl e ts₂) :
    ReadsTo StopsOperand (operand g) nl e (ts₁ ++ ts₂) := by
  intro c hf hstop
  obtain ⟨hopen, hread⟩ := hs.iterate hf.right (by rwa [Cursor.past_past])
  obtain ⟨hstart, x, hx, htree⟩ := hb c hf.left hopen
  obtain ⟨y, hy, hyt⟩ := hread x htree
  rw [Cursor.past_past] at hy
  exact ⟨hstart, y, hx.bind hy, hyt⟩

/-- An operator takes the suffixes of its operand, so none are left for it. -/
theorem readsOperand_unary {op : UnaryOp} (ho : Mark nl op.kind ts₁)
    (h : ReadsTo StopsOperand (g .operand) nl e ts₂) :
    ReadsTo StopsOperand (operand g) nl (.unary op e) (ts₁ ++ ts₂) := by
  intro c hf hstop
  obtain ⟨hk, ha⟩ := hf.left.mark ho
  obtain ⟨-, x, hx, htree⟩ := h _ hf.right (by rwa [Cursor.past_past])
  rw [Cursor.past_past] at hx
  have hterm : (term g).Reads c (.unary op x c.peek.range (.between c.peek.range x.range))
      (c.past (ts₁ ++ ts₂)) := by
    have hunary : (unary g op).Reads c (.unary op x c.peek.range (.between c.peek.range x.range))
        (c.past (ts₁ ++ ts₂)) := by
      unfold Parser.unary
      simp only [reads_read_bind, ha]
      exact hx.bind (reads_pure.mpr ⟨rfl, rfl⟩)
    unfold term
    cases op with
    | negate => simpa only [reads_peek_bind, show c.peek.kind = .minus from hk] using hunary
    | not => simpa only [reads_peek_bind, show c.peek.kind = .not from hk] using hunary
  have hnone : ReadsFurther (g .expression) (fun each => g (.suffixes each)) (.unary op e) .all nl
      (.unary op e) [] := readsFurther_nil
  obtain ⟨-, hread⟩ := hnone.iterate hf.behind hstop
  obtain ⟨y, hy, hyt⟩ := hread (.unary op x c.peek.range (.between c.peek.range x.range))
    (by rw [Expr.tree, htree])
  exact ⟨by rw [hk]; cases op <;> rfl, y, hterm.bind hy, hyt⟩

end HclSyntax.Parser
