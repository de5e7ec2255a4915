import HclSyntax.Proofs.Fence.Collection
import HclSyntax.Proofs.Grammar.Balanced

namespace HclSyntax.Parser

variable {f : Fence} {c : Cursor} {closers : List TokenKind}

section
variable {operand tighter expression : Parser Expr}

theorem stays_operators {level : Level} (hl : level ∈ BinaryOp.levels) (ht : Stays f tighter)
    (hf : Framed tighter) : Stays f (operators level tighter) := by
  refine ht.track_bind fun lhs lost => ?_
  dsimp only
  split
  · exact stays_pure _
  intro c closers h
  refine .iterate (I := fun _ c => c.Fenced f closers) (advances_operatorStep hf hl)
    (fun lhs c h => arrives_peekKind_bind ?_) h.ends h
  split
  · exact arrives_pure h
  rename_i hop
  have hflat := flat_of_lookup (flat_levels _ hl) hop
  refine arrives_skip_bind ((ht (h.pass hflat.2)).track_seq fun rhs lost c' h => ?_)
  dsimp only
  split <;> exact arrives_pure h

theorem stays_binary (ho : Stays f operand) (hf : Framed operand) : Stays f (binary operand) :=
  binary_induction hf ho fun _ hl _ hf hp => stays_operators hl hp hf

theorem stays_conditional (he : Stays f expression) (ho : Stays f operand) (hf : Framed operand) :
    Stays f (conditional expression operand) := by
  refine fun c closers h => arrives_peek_bind (((stays_binary ho hf) h).track_seq
    fun condition lost c' h => ?_)
  dsimp only
  split
  · exact arrives_pure h
  refine arrives_peekKind_bind ?_
  split
  · exact arrives_pure h
  rename_i hk
  have h := h.passed (Decidable.of_not_not hk) rfl
  refine arrives_skip_bind ((he h).track_seq fun ifTrue lost c' h => ?_)
  dsimp only
  split
  · exact arrives_pure h
  refine arrives_peek_bind ?_
  split
  · exact (still_report _ _ _).seq fun _ => arrives_pure h
  rename_i hk
  have h := h.passed (Decidable.of_not_not hk) rfl
  refine arrives_skip_bind ((he h).track_seq fun ifFalse lost c' h => ?_)
  dsimp only
  split <;> exact arrives_pure h

end

theorem stays_splatStep (a : SplatSteps) : Stays f (splatStep a) := by
  intro c closers h
  refine arrives_peekKind_bind ?_
  split
  · exact arrives_pure h
  rename_i hk
  have h := h.passed (Decidable.of_not_not hk) rfl
  refine arrives_read_bind (arrives_peek_bind ?_)
  dsimp only
  split
  · rename_i hk
    exact arrives_skip_bind (arrives_pure (h.passed hk rfl))
  · rename_i hk
    exact arrives_skip_bind ((still_numberValue _).seq fun _ => arrives_pure (h.passed hk rfl))
  · exact (still_reportFirst _ _ _).seq fun _ => still_recover.seq fun _ => arrives_pure h

theorem stays_attributeSplat (source : Expr) (dot star : Token) :
    Stays f (attributeSplat source dot star) := by
  have hsteps (a : SplatSteps) : Stays f (iterate splatStep a) := fun c closers h =>
    .iterate (I := fun _ c => c.Fenced f closers) advances_splatStep
      (fun a c h => (stays_splatStep a h).mono fun _ _ h => by split <;> exact h) h.ends h
  exact (hsteps _).bind fun _ => stays_pure _

theorem ends_dotSuffix_fenced (source : Expr) (h : c.Fenced f closers) (hk : c.peek.kind = .dot) :
    Ends (dotSuffix source) c fun _ c' => c'.Fenced f closers := by
  have h := h.passed hk rfl
  refine arrives_read_bind (arrives_peek_bind ?_)
  split
  · rename_i hk
    exact arrives_skip_bind (arrives_pure (h.passed hk rfl))
  · rename_i hk
    exact arrives_skip_bind (stays_attributeSplat _ _ _ (h.passed hk rfl))
  · exact (still_report _ _ _).seq fun _ => still_recover.seq fun _ => arrives_pure h

section
variable {expression : Parser Expr} {suffixes : Expr → Parser Expr}

/-- After a recovery any token is taken for the closing bracket of a splat. -/
theorem exits_fullSplat (hx : ∀ e, Stays f (suffixes e)) (source : Expr) (opening : Token) :
    Exits f .closeBracket (fullSplat suffixes source opening) := by
  intro c closers h
  have hrest {c : Cursor} (h : c.Fenced f closers) : Ends (do
      let marker := SourceRange.between opening.range (← previousRange)
      let each ← suffixes (.element marker)
      return Expr.splat source each marker marker (.between source.range each.range)) c
        fun _ c' => c'.Fenced f closers :=
    still_previousRange.seq fun _ => (hx _ h).seq fun _ _ h => arrives_pure h
  refine arrives_read_bind (still_recovering.seq fun b => ?_)
  dsimp only
  split
  · rename_i hk
    exact (still_report _ _ _).seq fun _ =>
      (exits_skipPast rfl (h.pass_ne hk.1)).seq fun _ _ h => hrest h
  · exact hrest h.shorten

theorem exits_indexKey (he : Stays f expression) : Exits f .closeBracket (indexKey expression) := by
  refine Exits.withNewlines (fun c closers h => (he h).track_seq fun key lost c' h => ?_) false
  dsimp only
  split
  · exact (exits_skipPast rfl h).seq fun _ _ h => arrives_pure h
  refine arrives_read_bind (still_recovering.seq fun b => ?_)
  split
  · rename_i hk
    exact (still_report _ _ _).seq fun _ =>
      (exits_skipPast rfl (h.pass_ne hk.1)).seq fun _ _ h => arrives_pure h
  · exact arrives_pure h.shorten

theorem exits_index (he : Stays f expression) (collection : Expr) (opening : Token) :
    Exits f .closeBracket (index expression collection opening) :=
  (exits_indexKey he).still fun key => still_previousRange.bind fun _ => by
    dsimp only
    split <;> exact still_pure _

theorem stays_suffixStep (he : Stays f expression) (hx : ∀ e, Stays f (suffixes e))
    (source : Expr) : Stays f (suffixStep expression suffixes source) := by
  intro c closers h
  refine arrives_peekKind_bind ?_
  split
  · rename_i hk
    exact (ends_dotSuffix_fenced source h hk).seq fun _ _ h => arrives_pure h
  · rename_i hk
    have h := h.opened hk rfl
    refine Arrives.seq (P := fun _ c' => c'.Fenced f closers) ?_ fun _ _ h => arrives_pure h
    refine arrives_read_bind (arrives_peekKind_bind ?_)
    split
    · rename_i hk
      exact arrives_skip_bind (exits_fullSplat hx _ _ (h.passed hk rfl))
    · exact exits_index he _ _ h
  · exact arrives_pure h

end

variable {g : Grammar}

/-- A grammar no production of which passes the fence. -/
structure Fences (f : Fence) (g : Grammar) : Prop where
  framed (p : Production) : Framed (g p)
  stays (p : Production) : Stays f (g p)

section
variable (hg : Fences f g)
include hg

/-- Any token is taken for the closing parenthesis. -/
theorem exits_parentheses (opening : Token) : Exits f .closeParen (withNewlines false do
    let (e, reported) ← observe (g .expression)
    if reported then skipPast .closeParen else closeParenthesis opening
    return e) := by
  refine Exits.withNewlines (fun c closers h => (hg.stays .expression h).observe_seq
    fun e reported c' h => ?_) false
  dsimp only
  split
  · exact (exits_skipPast rfl h).seq fun _ _ h => arrives_pure h
  · refine Arrives.seq (P := fun _ c' => c'.Fenced f closers) (arrives_peek_bind ?_)
      fun _ _ h => arrives_pure h
    split
    · exact (still_report _ _ _).seq fun _ => still_recover.seq fun _ _ _ => h.shorten
    · exact fun _ _ => h.shorten

theorem stays_term : Stays f (term g) := by
  intro c closers h
  have hunary (op : UnaryOp) (hk : c.peek.kind.isCloser = false) :
      Ends (unary g op) c fun _ c' => c'.Fenced f closers :=
    arrives_read_bind ((hg.stays .operand (h.pass hk)).seq fun _ _ h => arrives_pure h)
  have hstring (hk : c.peek.kind.inSequence = false) (hs : c.peek.kind ≠ .sequenceEnd) : False := by
    rcases h.peek_kind with hp | hp <;> simp_all
  refine arrives_peek_bind ?_
  split <;> rename_i hk
  · exact arrives_read_bind (exits_parentheses hg _ (h.opened hk rfl))
  · exact arrives_skip_bind ((still_numberValue _).seq fun _ => arrives_pure (h.passed hk rfl))
  · have h := h.passed hk rfl
    refine arrives_read_bind (arrives_peekKind_bind ?_)
    split
    · rename_i hk
      exact arrives_read_bind
        (exits_call (hg.stays .expression) (hg.framed _) _ (h.opened hk rfl))
    · exact arrives_pure h
  · exact (hstring (by rw [hk]; rfl) (by rw [hk]; decide)).elim
  · exact (hstring (by rw [hk]; rfl) (by rw [hk]; decide)).elim
  · exact hunary _ (by rw [hk]; rfl)
  · exact hunary _ (by rw [hk]; rfl)
  · exact arrives_skip_bind
      (exits_tuple (hg.stays .expression) (hg.framed _) hk (h.opened hk rfl))
  · exact arrives_skip_bind
      (exits_object (hg.stays .expression) (hg.framed _) hk (h.opened hk rfl))
  · exact still_invalid.stays h

theorem stays_suffixes (e : Expr) : Stays f (suffixes g e) := fun c closers h =>
  .iterate (I := fun _ c => c.Fenced f closers)
    (advances_suffixStep (hg.framed _) fun _ => hg.framed _)
    (fun e c h => (stays_suffixStep (hg.stays .expression) (fun e => hg.stays (.suffixes e)) e
      h).mono fun _ _ h => by split <;> exact h)
    h.ends h

theorem stays_operand : Stays f (operand g) := (stays_term hg).bind (stays_suffixes hg)

/-- One level more. -/
theorem Fences.production : Fences f (production g) where
  framed := Parser.framed.production hg.framed
  stays
    | .expression => stays_conditional (hg.stays .expression) (stays_operand hg)
      (Parser.framed.operand hg.framed)
    | .operand => stays_operand hg
    | .suffixes e => stays_suffixes hg e

end

theorem fences_grammar (depth : Nat) : Fences f (grammar depth) := by
  induction depth with
  | zero =>
    refine ⟨framed.grammar 0, fun p => ?_⟩
    cases p with
    | expression => exact still_invalid.stays
    | operand => exact still_invalid.stays
    | suffixes e => exact (still_invalid.bind fun _ => still_pure _).stays
  | succ depth ih => exact ih.production

/-- No expression passes the end of the sequence that it stands in. -/
theorem stays_expression : Stays f expression := by
  intro c closers h b hd
  have heq : expression ⟨c, b⟩ = grammar (c.remaining + 1) .expression ⟨c, b⟩ := rfl
  rw [heq]
  exact (fences_grammar _).stays .expression h b (heq ▸ hd)

end HclSyntax.Parser
