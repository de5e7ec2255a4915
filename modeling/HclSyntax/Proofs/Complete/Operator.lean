import HclSyntax.Parser.Expression
import HclSyntax.Proofs.Complete.Place

namespace HclSyntax

namespace Cursor

variable {c : Cursor} {nl : Bool} {ts ts' ts₁ ts₂ : List Token}

theorem Faces.remaining_lt (h : c.Faces nl (ts ++ ts')) (hlen : 0 < ts'.length) :
    (c.past (ts ++ ts')).remaining < (c.past ts).remaining := by
  have := h.right.remaining_past
  rw [past_past] at this
  omega

/-- The same for two parts behind `ts`, one of which is not empty. -/
theorem Faces.remaining_lt_append (h : c.Faces nl (ts ++ ts₁ ++ ts₂))
    (hlen : 0 < ts₁.length + ts₂.length) :
    (c.past (ts ++ ts₁ ++ ts₂)).remaining < (c.past ts).remaining := by
  rw [List.append_assoc] at h ⊢
  exact h.remaining_lt (by rwa [List.length_append])

end Cursor

namespace Parser

/-- The kinds that an operand can begin with. -/
def startsTerm : TokenKind → Bool
  | .openParen | .number | .identifier | .openQuote | .openHeredoc | .minus | .not | .openBracket
  | .openBrace => true
  | _ => false

/-- The kind of no suffix, and not of the parenthesis that makes a call of a name. -/
def StopsOperand (k : TokenKind) : Prop := k ≠ .dot ∧ k ≠ .openBracket ∧ k ≠ .openParen

def StopsOperators (levels : List Level) (k : TokenKind) : Prop :=
  StopsOperand k ∧ ∀ level ∈ levels, level.lookup k = none

def StopsExpression (k : TokenKind) : Prop := StopsOperators BinaryOp.levels k ∧ k ≠ .question

instance : DecidablePred StopsOperand := fun k =>
  inferInstanceAs (Decidable (k ≠ .dot ∧ k ≠ .openBracket ∧ k ≠ .openParen))

instance (levels : List Level) : DecidablePred (StopsOperators levels) := fun k =>
  inferInstanceAs (Decidable (StopsOperand k ∧ ∀ level ∈ levels, level.lookup k = none))

instance : DecidablePred StopsExpression := fun k =>
  inferInstanceAs (Decidable (StopsOperators BinaryOp.levels k ∧ k ≠ .question))

/-- The parser reads the tokens `ts` and means `e`, if what follows stops it. -/
def ReadsTo (stops : TokenKind → Prop) (p : Parser Expr) (nl : Bool) (e : Tree)
    (ts : List Token) : Prop :=
  ∀ c : Cursor, c.Faces nl ts → stops (c.past ts).peek.kind →
    startsTerm c.peek.kind ∧ ∃ x, p.Reads c x (c.past ts) ∧ x.tree = e

/-- The operators of a level are none of the tighter levels, and no suffixes. -/
def Apart : List Level → Prop
  | [] => True
  | level :: levels => (∀ o ∈ level, StopsOperators levels o.1) ∧ Apart levels

theorem apart_levels : Apart BinaryOp.levels := by
  refine ⟨?_, ?_, ?_, ?_, ?_, ?_, trivial⟩ <;> decide

/-- Operators of the levels are read: those of the first level one by one, so that there may be
more. -/
def ReadsOperators (operand : Parser Expr) : List Level → Bool → Tree → List Token → Prop
  | [], nl, e, ts => ReadsTo StopsOperand operand nl e ts
  | level :: levels, nl, e, ts =>
    ∀ c : Cursor, c.Faces nl ts → StopsOperators levels (c.past ts).peek.kind →
      startsTerm c.peek.kind ∧ ∃ x₀ c₀ x,
        (levels.foldr operators operand).Reads c x₀ c₀ ∧
        Leads (operatorStep (levels.foldr operators operand) level) x₀ c₀ x (c.past ts) ∧
        x.tree = e

variable {operand : Parser Expr} {level : Level} {levels : List Level} {nl : Bool}
  {e l r : Tree} {ts ts₁ ts₂ ts₃ : List Token}

theorem ReadsOperators.readsTo (h : ReadsOperators operand levels nl e ts) :
    ReadsTo (StopsOperators levels) (levels.foldr operators operand) nl e ts := by
  intro c hc hstop
  cases levels with
  | nil => exact h c hc hstop.1
  | cons level levels =>
    obtain ⟨hlevel, hlevels⟩ := List.forall_mem_cons.mp hstop.2
    obtain ⟨hs, x₀, c₀, x, hfirst, hleads, htree⟩ := h c hc ⟨hstop.1, hlevels⟩
    refine ⟨hs, x, ?_, htree⟩
    refine hfirst.track_bind (hleads.iterate ?_)
    unfold operatorStep
    simp only [reads_peekKind_bind, hlevel, reads_pure, and_self]

theorem ReadsOperators.tighter (h : ReadsOperators operand levels nl e ts) :
    ReadsOperators operand (level :: levels) nl e ts := by
  intro c hc hstop
  obtain ⟨hs, x, hx, htree⟩ := h.readsTo c hc hstop
  exact ⟨hs, x, c.past ts, x, hx, .refl, htree⟩

theorem ReadsOperators.binary {k : TokenKind} {op : BinaryOp}
    (hapart : Apart (level :: levels)) (hl : ReadsOperators operand (level :: levels) nl l ts₁)
    (ho : level.lookup k = some op) (hk : Mark nl k ts₂)
    (hr : ReadsOperators operand levels nl r ts₃) :
    ReadsOperators operand (level :: levels) nl (.binary op l r) (ts₁ ++ ts₂ ++ ts₃) := by
  intro c hc hstop
  obtain ⟨hkind, hadv⟩ := hc.left.right.mark hk
  have hkstop : StopsOperators levels (c.past ts₁).peek.kind := by
    obtain ⟨before, after, hlevel, -⟩ := List.lookup_eq_some_iff.mp ho
    rw [hkind]
    exact hapart.1 (k, op) (by simp [hlevel])
  obtain ⟨hs, x₀, c₀, x, hfirst, hleads, hx⟩ := hl c hc.left.left hkstop
  rw [Cursor.past_past] at hadv
  obtain ⟨-, y, hy, hytree⟩ := hr.readsTo _ hc.right (by rwa [Cursor.past_past])
  rw [Cursor.past_past] at hy
  refine ⟨hs, x₀, c₀, .binary op x y (.between x.range y.range), hfirst, hleads.step ?_ ?_, ?_⟩
  · unfold operatorStep
    simp only [reads_peekKind_bind, hkind, ho, reads_skip_bind, hadv]
    refine hy.track_bind ?_
    simp
  · exact hc.remaining_lt_append (Nat.add_pos_left hk.length_pos _)
  · rw [Expr.tree, hx, hytree]

variable {expression : Parser Expr}

theorem ReadsOperators.plain (h : ReadsOperators operand BinaryOp.levels nl e ts) :
    ReadsTo StopsExpression (conditional expression operand) nl e ts := by
  intro c hc hstop
  obtain ⟨hs, x, hx, htree⟩ := h.readsTo c hc hstop.1
  refine ⟨hs, x, ?_, htree⟩
  unfold conditional
  simp only [reads_peek_bind]
  refine Reads.track_bind (a := x) hx ?_
  simp [hstop.2]

theorem ReadsOperators.conditional {t a b : Tree} {ts₄ ts₅ : List Token}
    (hcond : ReadsOperators operand BinaryOp.levels nl t ts₁) (hq : Mark nl .question ts₂)
    (ha : ReadsTo StopsExpression expression nl a ts₃) (hk : Mark nl .colon ts₄)
    (hb : ReadsTo StopsExpression expression nl b ts₅) :
    ReadsTo StopsExpression (conditional expression operand) nl (.conditional t a b)
      (ts₁ ++ ts₂ ++ ts₃ ++ ts₄ ++ ts₅) := by
  intro c hc hstop
  have hc₄ := hc.left
  have hc₃ := hc₄.left
  have hc₂ := hc₃.left
  obtain ⟨hqk, hqa⟩ := hc₂.right.mark hq
  obtain ⟨hkk, hka⟩ := hc₄.right.mark hk
  obtain ⟨hs, x, hx, hxt⟩ := hcond.readsTo c hc₂.left (by rw [hqk]; decide)
  obtain ⟨-, y, hy, hyt⟩ := ha _ hc₃.right (by rw [Cursor.past_past, hkk]; decide)
  obtain ⟨-, z, hz, hzt⟩ := hb _ hc.right (by rwa [Cursor.past_past])
  rw [Cursor.past_past] at hqa hka hy hz
  refine ⟨hs, .conditional x y z (.between c.peek.range z.range), ?_, by rw [Expr.tree, hxt, hyt, hzt]⟩
  unfold Parser.conditional
  simp only [reads_peek_bind]
  refine Reads.track_bind (a := x) hx ?_
  simp only [Bool.false_eq_true, if_false, reads_peekKind_bind, hqk, ne_eq, not_true_eq_false,
    reads_skip_bind, hqa]
  refine hy.track_bind ?_
  simp only [Bool.false_eq_true, if_false, reads_peek_bind, hkk, not_true_eq_false,
    reads_skip_bind, hka]
  refine hz.track_bind ?_
  simp

end Parser

end HclSyntax
