import HclSyntax.Proofs.Range.Path
import HclSyntax.Proofs.Range.Template

namespace HclSyntax

namespace Expr

variable {e x : Expr} {c : Cursor} {lo : Nat}

/-- A node that is the token passed last. -/
theorem Shut.of_peek (hc : c.InOrder) (hr : e.range = c.peek.range) (h : e.children = []) :
    e.Shut c.peek.range.lo c.advance := by
  obtain ⟨hnext, hp⟩ := hc.next
  refine ⟨⟨⟨nests_of_children (by simp [h]), ?_, ?_⟩, ?_⟩, ?_⟩ <;> rw [hr]
  · exact hp.behind_eq.ge
  · exact hnext.forward
  · exact hp.peek_ahead

/-- A placeholder where the next token is. -/
theorem laid_placeholder (hc : c.InOrder) :
    (placeholder c.peek.range).Laid c.peek.range.lo c := by
  obtain ⟨hnext, -⟩ := hc.next
  exact ⟨⟨⟨nests_of_children (by simp [children, placeholder]), Nat.le_refl _, Nat.le_refl _⟩,
    hnext.forward⟩, Nat.le_refl _, fun h => by
      simp [placeholder, Value.placeholder, Value.isKnown] at h⟩

/-- A node that begins with a token and ends with its only child. -/
theorem Laid.of_follows {t : Token} (h : c.Follows t) (hx : x.Laid t.range.lo c)
    (hr : e.range = .between t.range x.range) (hk : e.Known → x.Known) (hc : e.children = [x]) :
    e.Laid t.range.lo c := by
  obtain ⟨⟨⟨hnx, hlx, hhx⟩, hfx⟩, hax, hkx⟩ := hx
  obtain ⟨hnext, -⟩ := h.inOrder.next
  have := h.forward
  have := h.behind
  have := h.ahead
  have := hnext.ahead
  have := hnext.behind
  have hlo : e.range.lo = min t.range.lo x.range.lo := by rw [hr, SourceRange.lo_between]
  have hhi : e.range.hi = max t.range.hi x.range.hi := by rw [hr, SourceRange.hi_between]
  refine ⟨⟨⟨nests_of_children fun y hy => ?_, by omega, by omega⟩, by omega⟩, by omega, fun h => ?_⟩
  · rw [hc] at hy
    obtain rfl := List.mem_singleton.mp hy
    exact ⟨hnx, by omega, by omega⟩
  · have := hkx (hk h)
    omega

end Expr

namespace Parser

variable {g : Grammar} {c : Cursor} {lo : Nat}

/-- A grammar whose productions lie where they were read. -/
structure Places (g : Grammar) : Prop where
  framed (p : Production) : Framed (g p)
  expression : Lays (g .expression)
  operand : Lays (g .operand)
  suffixes : Extends fun x => g (.suffixes x)

theorem passes_closeParenthesis (opening : Token) : Passes (closeParenthesis opening) := by
  have hpeek : Still peek := fun _ => rfl
  refine hpeek.passes fun close => ?_
  split
  · exact (still_report _ _ _).passes fun _ => still_recover.passes fun _ => passes_skip
  · exact passes_skip

/-- What is between two tokens is shut. -/
theorem Encloses.laid {opening : Token} {p : Parser Expr} (h : Encloses opening p) (hf : Framed p)
    (hc : c.Follows opening) : Ends p c fun x c' => x.Laid opening.range.lo c' :=
  fun b hd => (h hc b hd).laid (hc.inOrder.further (hf ⟨c, b⟩)).inOrder

theorem lays_invalid : Lays invalid := fun c hc b _ => by
  rw [still_invalid ⟨c, b⟩]
  exact Expr.laid_placeholder hc

theorem nameExpr_leaf (t : Token) : (nameExpr t).range = t.range ∧ (nameExpr t).children = [] := by
  unfold nameExpr
  split <;> exact ⟨rfl, rfl⟩

section
variable (hg : Places g)
include hg

theorem lays_parenthesized (hc : c.InOrder) (hk : c.peek.kind = .openParen) :
    Ends (parenthesized g) c fun x c' => x.Laid c.peek.range.lo c' := by
  have hopen : c.advance.Follows c.peek := hc.follows (by rw [hk]; decide)
  refine arrives_read_bind (Arrives.mono (P := fun x c' => c'.InOrder ∧ x.Shut c.peek.range.lo c')
    ?_ fun x c' h => h.2.laid h.1)
  refine Ends.withNewlines ((hg.expression.behind (hg.framed _) (hopen.enter false)).observe_seq
    fun x reported c₁ ⟨hl, hc₁, hx⟩ => ?_)
  have hdone {c₂ : Cursor} (hl : c₁.advance.Further c₂) :
      c₂.leave.InOrder ∧ x.Shut c.peek.range.lo c₂.leave :=
    ⟨hl.inOrder.leave, (hx.shut hl.toLater hc₁.inOrder).leave⟩
  dsimp only
  split
  · exact (passes_skipPast _).after hc₁.inOrder fun _ _ hl => arrives_pure (hdone hl)
  · exact (passes_closeParenthesis _).after hc₁.inOrder fun _ _ hl => arrives_pure (hdone hl)

theorem lays_nameOrCall (hc : c.InOrder) (hk : c.peek.kind = .identifier) :
    Ends (nameOrCall g) c fun x c' => x.Laid c.peek.range.lo c' := by
  have hname : c.advance.Follows c.peek := hc.follows (by rw [hk]; decide)
  refine arrives_read_bind (arrives_peekKind_bind ?_)
  split
  · have hopen := hname.later hname.inOrder.skip.toLater
    exact arrives_read_bind ((encloses_call hg.expression (hg.framed _)).laid
      (framed.call (hg.framed _) _) hopen)
  · obtain ⟨hr, hleaf⟩ := nameExpr_leaf c.peek
    exact arrives_pure ((Expr.Shut.of_peek hc hr hleaf).laid hname.inOrder)

theorem lays_unary (op : UnaryOp) (hc : c.InOrder) (hk : c.peek.kind ≠ .eof) :
    Ends (unary g op) c fun x c' => x.Laid c.peek.range.lo c' := by
  refine arrives_read_bind ((hg.operand.behind (hg.framed _) (hc.follows hk)).seq
    fun x c' ⟨_, hc', hx⟩ => arrives_pure ?_)
  exact .of_follows hc' hx rfl Expr.known_unary.mp rfl

theorem lays_term : Lays (term g) := by
  intro c hc
  have hskip := hc.skip
  have hleaf {x : Expr} (hr : x.range = c.peek.range) (h : x.children = []) :
      x.Laid c.peek.range.lo c.advance := (Expr.Shut.of_peek hc hr h).laid hskip.inOrder
  have hopen {p : Parser Expr} (h : Encloses c.peek p) (hf : Framed p) (hk : c.peek.kind ≠ .eof) :
      Ends (skip >>= fun _ => p) c fun x c' => x.Laid c.peek.range.lo c' :=
    arrives_skip_bind (h.laid hf (hc.follows hk))
  have he := hg.expression
  have hf := hg.framed .expression
  refine arrives_peek_bind ?_
  split <;> rename_i hk
  · exact lays_parenthesized hg hc hk
  · exact arrives_skip_bind ((still_numberValue _).seq fun _ => arrives_pure (hleaf rfl rfl))
  · exact lays_nameOrCall hg hc hk
  · exact hopen (encloses_quotedTemplate he hf) (framed.template hf _ _) (by rw [hk]; decide)
  · exact hopen (encloses_quotedTemplate he hf) (framed.template hf _ _) (by rw [hk]; decide)
  · exact lays_unary hg _ hc (by rw [hk]; decide)
  · exact lays_unary hg _ hc (by rw [hk]; decide)
  · exact hopen (encloses_tuple he hf) (framed.tuple hf) (by rw [hk]; decide)
  · exact hopen (encloses_object he hf) (framed.object hf) (by rw [hk]; decide)
  · exact lays_invalid hc

theorem extends_suffixes : Extends (suffixes g) := by
  intro c lo x hc hx
  have hframed (x : Expr) :
      Framed (suffixStep (g .expression) (fun each => g (.suffixes each)) x) :=
    framed.suffixStep (hg.framed _) (fun _ => hg.framed _) x
  refine .iterate (I := fun x c => c.InOrder ∧ x.Laid lo c)
    (advances_suffixStep (hg.framed _) fun _ => hg.framed _) (fun x c ⟨hc, hx⟩ b hd => ?_)
    hc.whole.2 ⟨hc, hx⟩
  have hl := hc.further (hframed x ⟨c, b⟩)
  have hstep := ends_suffixStep hg.expression (hg.framed _) hg.suffixes (fun _ => hg.framed _) hx hc
    b hd
  dsimp only
  split
  · exact ⟨hl.inOrder, hstep⟩
  · exact hstep

theorem lays_operand : Lays (operand g) := fun _ hc =>
  (lays_term hg hc).after hc (framed.term hg.framed) fun _ _ hl hx =>
    extends_suffixes hg hl.inOrder hx

/-- One level more. -/
theorem Places.production : Places (production g) where
  framed := Parser.framed.production hg.framed
  expression := lays_conditional hg.expression (hg.framed _) (lays_operand hg)
    (Parser.framed.operand hg.framed)
  operand := lays_operand hg
  suffixes := extends_suffixes hg

end

theorem places_grammar (depth : Nat) : Places (grammar depth) := by
  induction depth with
  | zero =>
    exact
      { framed := framed.grammar 0
        expression := lays_invalid
        operand := lays_invalid
        suffixes := fun _ _ _ _ hx => still_invalid.seq fun _ => arrives_pure hx }
  | succ depth ih => exact ih.production

/-- Expressions lie where they were read. -/
theorem lays_expression : Lays expression := by
  intro c hc b hd
  have heq : expression ⟨c, b⟩ = grammar (c.remaining + 1) .expression ⟨c, b⟩ := rfl
  rw [heq]
  exact (places_grammar _).expression hc b (heq ▸ hd)

end Parser

end HclSyntax
