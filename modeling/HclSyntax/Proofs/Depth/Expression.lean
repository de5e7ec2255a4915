import HclSyntax.Proofs.Depth.Path
import HclSyntax.Proofs.Termination

namespace HclSyntax.Parser

variable {src : TokenList} {g : Grammar} {c : Cursor} {outer : List TokenKind}

section
variable {operand tighter expression : Parser Expr}

theorem leads_of_lookup {level : Level} (hl : level ∈ BinaryOp.levels) {k : TokenKind}
    {op : BinaryOp} (h : level.lookup k = some op) : k.leads := by
  have hall : ∀ level ∈ BinaryOp.levels, ∀ o ∈ level, o.1.leads := by decide
  obtain ⟨before, after, rfl, -⟩ := List.lookup_eq_some_iff.mp h
  exact hall _ hl (k, op) (by simp)

theorem keeps_operators {level : Level} (hl : level ∈ BinaryOp.levels)
    (ht : KeepsOperand src tighter) (hf : Framed tighter) :
    KeepsOperand src (operators level tighter) := by
  refine ht.track_bind fun lhs lost => ?_
  dsimp only
  split
  · exact keeps_pure _
  intro c outer h
  refine .iterate (I := fun _ c => c.AtDepth src outer) (advances_operatorStep hf hl)
    (fun lhs c h => arrives_peekKind_bind ?_) h.ends h
  split
  · exact arrives_pure h
  rename_i hop
  have hflat := flat_of_lookup (flat_levels _ hl) hop
  have hoperand : c.advance.AtOperand src outer := .passed h rfl hflat.1 (leads_of_lookup hl hop)
  refine arrives_skip_bind ((ht hoperand).track_seq fun rhs lost c' h => ?_)
  dsimp only
  split <;> exact arrives_pure h

theorem keeps_binary (ho : KeepsOperand src operand) (hf : Framed operand) :
    KeepsOperand src (binary operand) :=
  binary_induction hf ho fun _ hl _ hf hp => keeps_operators hl hp hf

theorem keeps_conditional (he : KeepsOperand src expression) (ho : KeepsOperand src operand)
    (hf : Framed operand) : KeepsOperand src (conditional expression operand) := by
  refine fun c outer h => arrives_peek_bind (((keeps_binary ho hf) h).track_seq
    fun condition lost c' h => ?_)
  dsimp only
  split
  · exact arrives_pure h
  refine arrives_peekKind_bind ?_
  split
  · exact arrives_pure h
  rename_i hk
  have h := Cursor.AtOperand.passed h (Decidable.of_not_not hk) rfl rfl
  refine arrives_skip_bind ((he h).track_seq fun ifTrue lost c' h => ?_)
  dsimp only
  split
  · exact arrives_pure h
  refine arrives_peek_bind ?_
  split
  · exact (still_report _ _ _).seq fun _ => arrives_pure h
  rename_i hk
  have h := Cursor.AtOperand.passed h (Decidable.of_not_not hk) rfl rfl
  refine arrives_skip_bind ((he h).track_seq fun ifFalse lost c' h => ?_)
  dsimp only
  split <;> exact arrives_pure h

end

/-- What a production leaves behind at `c`: no bracket open, and behind an operand none that is
next. -/
def Production.Keeps (src : TokenList) (c : Cursor) : Production → Parser Expr → Prop
  | .expression, p => ∀ outer, c.AtOperand src outer →
    Arrives src.harmless p c fun _ c' => c'.AtDepth src outer
  | .operand, p => ∀ outer, c.AtOperand src outer →
    Arrives src.harmless p c fun _ c' => c'.AtDepth src outer ∧ c'.peek.kind ≠ .openBracket
  | .suffixes _, p => ∀ outer, c.AtDepth src outer → c.Settled →
    Arrives src.harmless p c fun _ c' => c'.AtDepth src outer ∧ c'.peek.kind ≠ .openBracket

/-- A grammar the productions of which leave no bracket open, and that reads keys. -/
structure Shuts (src : TokenList) (g : Grammar) : Prop where
  framed (p : Production) : Framed (g p)
  keeps (p : Production) (c : Cursor) : Production.Keeps src c p (g p)
  keys : StopsAtBracket (g .expression)

section
variable (hg : Shuts src g)
include hg

theorem Shuts.expression : KeepsOperand src (g .expression) :=
  fun c outer h => hg.keeps .expression c outer h

theorem Shuts.suffixes : KeepsSuffixes src fun each => g (.suffixes each) :=
  fun each c outer h hs => hg.keeps (.suffixes each) c outer h hs

omit hg in
/-- What stands in front of the closing parenthesis would have been reported. -/
theorem closes_closeParenthesis (opening : Token) :
    Closes src .closeParen (closeParenthesis opening) := by
  intro c outer h
  refine arrives_peek_bind ?_
  split
  · exact arrives_report_bind fun hd => hd.1 rfl
  · rename_i hk
    have hk : c.peek.kind = .closeParen := Decidable.of_not_not hk
    exact fun _ _ => ⟨h.closer hk rfl, Cursor.just_advance hk⟩

theorem closes_parentheses (opening : Token) : ClosesOperand src .closeParen (withNewlines false do
    let (e, reported) ← observe (g .expression)
    if reported then skipPast .closeParen else closeParenthesis opening
    return e) := by
  refine ClosesFrom.withNewlines (fun c outer h => (hg.expression h).observe_seq
    fun e reported c' h => ?_) (·.enter false)
  dsimp only
  split
  · exact (closes_skipPast rfl).still (fun _ => still_pure _) h
  · exact (closes_closeParenthesis opening).still (fun _ => still_pure _) h

/-- Behind an operand, or in front of no bracket. -/
theorem arrives_term (ho : Orderly src.body) (h : c.AtOperand src outer) :
    Arrives src.harmless (term g) c fun _ c' => c'.AtDepth src outer ∧ c'.Settled := by
  have hjust {k : TokenKind} (hk : k.endsOperand) (c' : Cursor)
      (h : c'.AtDepth src outer ∧ c'.Just (·.kind = k)) : c'.AtDepth src outer ∧ c'.Settled :=
    ⟨h.1, .inl (h.2.pastOperand hk)⟩
  have hunary (op : UnaryOp) {k : TokenKind} (hk : c.peek.kind = k) (hflat : k.isOpener = false)
      (hl : k.leads) :
      Arrives src.harmless (unary g op) c fun _ c' => c'.AtDepth src outer ∧ c'.Settled :=
    arrives_read_bind ((hg.keeps .operand _ _ (.passed h.depth hk hflat hl)).seq fun _ _ h =>
      arrives_pure ⟨h.1, .inr h.2⟩)
  refine arrives_peek_bind ?_
  split
  · rename_i hk
    exact arrives_read_bind
      ((closes_parentheses hg _ (.opened h.depth hk rfl rfl)).mono fun _ => hjust rfl)
  · rename_i hk
    refine arrives_skip_bind ((still_numberValue _).seq fun _ => arrives_pure ?_)
    exact hjust rfl _ ⟨h.depth.passed hk rfl, Cursor.just_advance hk⟩
  · rename_i hk
    have hname := Behind.name h hk
    refine arrives_read_bind (arrives_peekKind_bind ?_)
    split
    · rename_i hk
      have h := Cursor.AtOperand.opened hname.1 hk rfl rfl
      exact arrives_read_bind
        ((closes_call hg.expression (hg.framed _) _ h).mono fun _ => hjust rfl)
    · exact arrives_pure ⟨hname.1, .inl hname.2⟩
  · rename_i hk
    refine arrives_skip_bind (Arrives.mono ?_ fun _ => hjust (k := .closeQuote) rfl)
    unfold quotedTemplate
    rw [hk]
    exact closes_template ho hg.expression (by decide) (hg.framed _) _ (h.depth.opened hk rfl)
  · rename_i hk
    refine arrives_skip_bind (Arrives.mono ?_ fun _ => hjust (k := .closeHeredoc) rfl)
    unfold quotedTemplate
    rw [hk]
    exact closes_template ho hg.expression (by decide) (hg.framed _) _ (h.depth.opened hk rfl)
  · rename_i hk
    exact hunary _ hk rfl rfl
  · rename_i hk
    exact hunary _ hk rfl rfl
  · rename_i hk
    have h := Cursor.AtOperand.opened h.depth hk rfl rfl
    exact arrives_skip_bind
      ((closes_tuple hg.expression (hg.framed _) hk h).mono fun _ => hjust rfl)
  · rename_i hk
    have h := Cursor.AtOperand.opened h.depth hk rfl rfl
    exact arrives_skip_bind
      ((closes_object hg.expression (hg.framed _) hk h).mono fun _ => hjust rfl)
  · rename_i hk _
    intro b _
    rw [still_invalid ⟨c, b⟩]
    exact ⟨h.depth, .inr hk⟩

variable (ho : Orderly src.body)
include ho

theorem arrives_suffixes (e : Expr) (h : c.AtDepth src outer) (hs : c.Settled) :
    Arrives src.harmless (suffixes g e) c fun _ c' =>
      c'.AtDepth src outer ∧ c'.peek.kind ≠ .openBracket :=
  .iterate (I := fun _ c => c.AtDepth src outer ∧ c.Settled)
    (advances_suffixStep (hg.framed _) fun _ => hg.framed _)
    (fun e _ => arrives_suffixStep hg.expression hg.keys hg.suffixes ho e) h.ends ⟨h, hs⟩

theorem arrives_operand (h : c.AtOperand src outer) : Arrives src.harmless (operand g) c
    fun _ c' => c'.AtDepth src outer ∧ c'.peek.kind ≠ .openBracket :=
  (arrives_term hg ho h).seq fun e _ h => arrives_suffixes hg ho e h.1 h.2

theorem Shuts.production (p : Production) (c : Cursor) :
    Production.Keeps src c p (production g p) := by
  cases p with
  | expression =>
    have hoperand : KeepsOperand src (Parser.operand g) :=
      fun _ _ h => (arrives_operand hg ho h).mono fun _ _ h => h.1
    exact fun _ h => keeps_conditional hg.expression hoperand (Parser.framed.operand hg.framed) h
  | operand => exact fun _ h => arrives_operand hg ho h
  | suffixes e => exact fun _ h hs => arrives_suffixes hg ho e h hs

end

/-- Passes all that is left. -/
def passAll {α : Type} (a : α) : Parser α := fun s =>
  ⟨a, [], { s with cursor := { s.cursor with passed := s.cursor.rest.reverse ++ s.cursor.passed,
                                             rest := [] } }⟩

theorem framed_passAll {α : Type} (a : α) : Framed (passAll a) := fun s =>
  ⟨rfl, rfl, s.cursor.rest, (List.append_nil _).symm, rfl⟩

theorem arrives_passAll {α : Type} (a : α) (h : c.AtDepth src outer) :
    Arrives src.harmless (passAll a) c fun _ c' => c'.AtDepth src [] ∧ c'.rest = [] := by
  obtain ⟨pending, hp, -⟩ := h
  refine fun b _ => ⟨⟨[], ⟨?_, hp.ends, .inl ⟨rfl, rfl⟩⟩, List.nil_sublist _⟩, rfl⟩
  rw [← hp.whole]
  simp [passAll]

theorem Production.Keeps.congr {p : Production} {q q' : Parser Expr}
    (hq : ∀ b, q' ⟨c, b⟩ = q ⟨c, b⟩) (h : Production.Keeps src c p q) :
    Production.Keeps src c p q' := by
  have harrives {Q : Expr → Cursor → Prop} (h : Arrives src.harmless q c Q) :
      Arrives src.harmless q' c Q := by
    intro b
    rw [hq b]
    exact h b
  cases p with
  | expression => exact fun outer hc => harrives (h outer hc)
  | operand => exact fun outer hc => harrives (h outer hc)
  | suffixes e => exact fun outer hc hs => harrives (h outer hc hs)

theorem keeps_passAll (p : Production) (c : Cursor) (e : Expr) :
    Production.Keeps src c p (passAll e) := by
  have hclosed {outer : List TokenKind} (h : c.AtDepth src outer) :
      Arrives src.harmless (passAll e) c
        fun _ c' => c'.AtDepth src outer ∧ c'.peek.kind ≠ .openBracket := by
    refine (arrives_passAll e h).mono fun _ c' hc => ⟨hc.1.mono (List.nil_sublist _), ?_⟩
    rw [Cursor.peek, hc.2]
    simp [hc.1.ends]
  cases p with
  | expression => exact fun _ h => (hclosed h.depth).mono fun _ _ h => h.1
  | operand => exact fun _ h => hclosed h.depth
  | suffixes e => exact fun _ h _ => hclosed h

/-- Expressions leave no bracket open. -/
theorem keeps_expression (ho : Orderly src.body) : KeepsOperand src expression := by
  intro c outer h
  rw [expression_eq]
  -- a key is read up to its closer only by a grammar that is deep enough, so the induction is on
  -- what is left of the source: at the places before, nothing is asked of the grammar
  refine settles_production.induct (P := Production.Keeps src)
    (fun p => framed_passAll (Expr.element default)) (fun _ _ _ _ => .congr)
    (fun p c => keeps_passAll p c _) (fun g hf hg hk => ?_) .expression h.depth.ends outer h
  have hkeys : StopsAtBracket (g .expression) := fun c hc b => by
    rcases hg .expression ⟨c, b⟩ with heq | heq <;> rw [heq]
    · rw [← expression_eq]
      exact stopsAtBracket_expression hc b
    · exact .inl rfl
  exact Shuts.production ⟨hf, hk, hkeys⟩ ho

end HclSyntax.Parser
