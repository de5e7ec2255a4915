import HclSyntax.Proofs.Progress.Arrives
import HclSyntax.Proofs.Range.Place

namespace HclSyntax

namespace Expr

variable {e x y : Expr} {c : Cursor} {lo : Nat}

/-- A node that begins with `x` and ends with `y`, and has no other children. -/
theorem Laid.between (hx : x.Shut lo c) (hy : y.Laid lo c) (hc : c.InOrder)
    (hr : e.range = .between x.range y.range) (hk : e.Known → y.Known)
    (hchildren : ∀ z ∈ e.children, z = x ∨ z = y) : e.Laid lo c := by
  obtain ⟨⟨⟨hnx, hlx, hhx⟩, hfx⟩, hax⟩ := hx
  obtain ⟨⟨⟨hny, hly, hhy⟩, hfy⟩, hay, hky⟩ := hy
  obtain ⟨hnext, -⟩ := hc.next
  have := hnext.behind
  have := hnext.ahead
  have hlo : e.range.lo = min x.range.lo y.range.lo := by rw [hr, SourceRange.lo_between]
  have hhi : e.range.hi = max x.range.hi y.range.hi := by rw [hr, SourceRange.hi_between]
  refine ⟨⟨⟨nests_of_children fun z hz => ?_, by omega, by omega⟩, by omega⟩, by omega, fun h => ?_⟩
  · rcases hchildren z hz with rfl | rfl
    · exact ⟨hnx, by omega, by omega⟩
    · exact ⟨hny, by omega, by omega⟩
  · have := hky (hk h)
    omega

end Expr

namespace Parser

variable {α β σ : Type} {c : Cursor}

section
variable {p : Parser α} {P : α → Cursor → Prop} {Q : β → Cursor → Prop}

/-- A parser that moves forward gets to a place further on. -/
theorem Ends.after {f : α → Parser β} (h : Ends p c P) (hc : c.InOrder) (hp : Framed p)
    (hf : ∀ a c', c.Further c' → P a c' → Ends (f a) c' Q) : Ends (p >>= f) c Q :=
  Arrives.seq (P := fun a c' => c.Further c' ∧ P a c')
    (fun b hd => ⟨hc.further (hp ⟨c, b⟩), h b hd⟩) fun a c' h => hf a c' h.1 h.2

theorem Ends.track_after {f : α × Bool → Parser β} (h : Ends p c P) (hc : c.InOrder)
    (hp : Framed p) (hf : ∀ a lost c', c.Further c' → P a c' → Ends (f (a, lost)) c' Q) :
    Ends (track p >>= f) c Q :=
  Arrives.track_seq (P := fun a c' => c.Further c' ∧ P a c')
    (fun b hd => ⟨hc.further (hp ⟨c, b⟩), h b hd⟩) fun a lost c' h => hf a lost c' h.1 h.2

/-- Nothing is known but that the parser moves forward. -/
theorem Framed.after {f : α → Parser β} (hp : Framed p) (hc : c.InOrder)
    (hf : ∀ a c', c.Further c' → Ends (f a) c' Q) : Ends (p >>= f) c Q :=
  Ends.after (P := fun _ _ => True) (fun _ _ => trivial) hc hp fun a c' hl _ => hf a c' hl

theorem Ends.withNewlines {p : Parser β} {newlines : Bool}
    (h : Ends p (c.enter newlines) fun a c' => Q a c'.leave) :
    Ends (withNewlines newlines p) c Q := Arrives.withNewlines h

end

theorem ends_previousRange_bind {f : SourceRange → Parser β} {Q : β → Cursor → Prop}
    (h : Ends (f c.previousRange) c Q) : Ends (previousRange >>= f) c Q := h

/-- After a parser that passes the next token, that lies behind. -/
theorem Passes.after {p : Parser α} {f : α → Parser β} {Q : β → Cursor → Prop} (hp : Passes p)
    (hc : c.InOrder) (hf : ∀ a c', c.advance.Further c' → Ends (f a) c' Q) : Ends (p >>= f) c Q := by
  obtain ⟨-, hpassed⟩ := hc.next
  exact Arrives.seq (P := fun _ c' => c.advance.Further c')
    (fun b _ => hpassed.inOrder.further (hp ⟨c, b⟩ hc.whole.2)) hf

/-- What the parser reads lies behind the place where it begins. -/
def Lays (p : Parser Expr) : Prop :=
  ∀ ⦃c⦄, c.InOrder → Ends p c fun e c' => e.Laid c.peek.range.lo c'

/-- An expression that follows a token lies behind it. -/
theorem Lays.behind {e : Parser Expr} {opening : Token} (he : Lays e) (hf : Framed e)
    (hc : c.Follows opening) :
    Ends e c fun x c' => c.Further c' ∧ c'.Follows opening ∧ x.Laid opening.range.lo c' :=
  fun b hd =>
    have hl := hc.inOrder.further (hf ⟨c, b⟩)
    ⟨hl, hc.later hl.toLater, (he hc.inOrder b hd).mono hc.lo_le_peek⟩

variable {expression operand tighter : Parser Expr}

theorem lays_operators {level : Level} (hl : level ∈ BinaryOp.levels) (ht : Lays tighter)
    (hf : Framed tighter) : Lays (operators level tighter) := by
  intro c hc
  refine (ht hc).track_after hc hf fun lhs lost c' hl' hlhs => ?_
  dsimp only
  split
  · exact arrives_pure hlhs
  refine .iterate (I := fun lhs c' => c'.InOrder ∧ lhs.Laid c.peek.range.lo c')
    (advances_operatorStep hf hl) (fun lhs c' h => arrives_peekKind_bind ?_)
    hl'.inOrder.whole.2 ⟨hl'.inOrder, hlhs⟩
  obtain ⟨hc', hlhs⟩ := h
  obtain ⟨hnext, hp⟩ := hc'.next
  split
  · exact arrives_pure hlhs
  refine arrives_skip_bind ((ht hp.inOrder).track_after hp.inOrder hf
    fun rhs lost c₁ hl₁ hrhs => ?_)
  have hlhs₁ := hlhs.shut hl₁.toLater hc'
  dsimp only
  split
  · exact arrives_pure (hlhs₁.laid hl₁.inOrder)
  · obtain ⟨hnext₁, -⟩ := hp.inOrder.next
    have hlo : c.peek.range.lo ≤ c'.advance.peek.range.lo := by
      have := hlhs.from_le
      have := hlhs.lo_le
      have := hp.peek_ahead
      have := hnext₁.ahead
      omega
    refine arrives_pure ⟨hl₁.inOrder, .between hlhs₁ (hrhs.mono hlo) hl₁.inOrder rfl
      (fun h => (Expr.known_binary.mp h).2) (by simp [Expr.children])⟩

theorem lays_binary (ho : Lays operand) (hf : Framed operand) : Lays (binary operand) :=
  binary_induction hf ho fun _ hl _ hf hp => lays_operators hl hp hf

/-- Between a condition and the last result there are two tokens at least. -/
theorem lays_conditional (he : Lays expression) (hfe : Framed expression) (ho : Lays operand)
    (hfo : Framed operand) : Lays (conditional expression operand) := by
  intro c hc
  refine arrives_peek_bind (((lays_binary ho hfo) hc).track_after hc (framed.binary hfo)
    fun condition lost c₁ hl₁ hcond => ?_)
  dsimp only
  split
  · exact arrives_pure hcond
  refine arrives_peekKind_bind ?_
  split
  · exact arrives_pure hcond
  rename_i hq
  obtain ⟨-, hp₁⟩ := hl₁.inOrder.next
  refine arrives_skip_bind ((he hp₁.inOrder).track_after hp₁.inOrder hfe
    fun ifTrue lost c₂ hl₂ htrue => ?_)
  have hcond₂ := hcond.shut hl₂.toLater hl₁.inOrder
  dsimp only
  split
  · exact arrives_pure (hcond₂.laid hl₂.inOrder)
  refine arrives_peek_bind ?_
  split
  · exact (still_report _ _ _).seq fun _ => arrives_pure (hcond₂.laid hl₂.inOrder)
  rename_i hcolon
  obtain ⟨-, hp₂⟩ := hl₂.inOrder.next
  refine arrives_skip_bind ((he hp₂.inOrder).track_after hp₂.inOrder hfe
    fun ifFalse lost c₃ hl₃ hfalse => ?_)
  dsimp only
  split
  · exact arrives_pure ((hcond₂.later (hp₂.trans hl₃.toLater)).laid hl₃.inOrder)
  -- the question mark and the colon are not the end of the file, so what follows lies behind them
  have hquestion := hp₁.beyond (by rw [Decidable.of_not_not hq]; decide)
  have hbehind := hp₂.beyond (by rw [Decidable.of_not_not hcolon]; decide)
  obtain ⟨hnext₁, -⟩ := hp₁.inOrder.next
  obtain ⟨hnext₂, -⟩ := hp₂.inOrder.next
  obtain ⟨⟨⟨hnc, hlc, hhc⟩, hfc⟩, hac, -⟩ := hcond
  obtain ⟨⟨⟨hnt, hlt, hht⟩, hft⟩, hat, -⟩ := htrue
  obtain ⟨⟨⟨hnf, hlf, hhf⟩, hff⟩, haf, hkf⟩ := hfalse
  have := hnext₁.ahead
  have := hnext₂.ahead
  have := hc.next.1.forward
  have := hl₁.peek_hi
  let e : Expr := .conditional condition ifTrue ifFalse (.between c.peek.range ifFalse.range)
  have hlo : e.range.lo = min c.peek.range.lo ifFalse.range.lo := SourceRange.lo_between
  have hhi : e.range.hi = max c.peek.range.hi ifFalse.range.hi := SourceRange.hi_between
  refine arrives_pure (a := e) ⟨⟨⟨Expr.nests_of_children ?_, by omega, by omega⟩, by omega⟩,
    by omega, fun h => ?_⟩
  · change ∀ x ∈ [condition, ifTrue, ifFalse], x.Inside e.range.lo e.range.hi
    simp only [List.forall_mem_cons]
    refine ⟨⟨hnc, ?_, ?_⟩, ⟨hnt, ?_, ?_⟩, ⟨hnf, ?_, ?_⟩, by simp⟩ <;> omega
  · have := hkf (Expr.known_conditional.mp h).2.2
    omega

end Parser

end HclSyntax
