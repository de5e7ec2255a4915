import HclSyntax.Proofs.Order.Collection
import HclSyntax.Proofs.Order.Template

namespace HclSyntax.Parser

variable {l : TokenList} {c : Cursor} {paths : List Traversal} {source : Expr}

theorem told_attributeSplat {dot star : Token} (h : Told l (paths ++ source.paths) c) :
    Ends (attributeSplat source dot star) c fun x c' => Told l (paths ++ x.paths) c' := by
  refine (framed.iterate framed.splatStep _).meets_seq h fun a c₁ h₁ => ?_
  dsimp only
  split <;> exact arrives_pure (by simpa using h₁)

theorem tellsOn_dotSuffix : TellsOn l dotSuffix := by
  intro c paths source h
  refine arrives_read_bind (arrives_peek_bind ?_)
  split
  · exact arrives_skip_bind (arrives_pure (Told.step h.advance.advance _))
  · exact arrives_skip_bind (told_attributeSplat h.advance.advance)
  · exact (still_report _ _ _).seq fun _ => still_recover.seq fun _ => arrives_pure h.advance

section
variable {e : Parser Expr} {suffixes : Expr → Parser Expr} {opening : Token}

/-- The suffixes of an element come behind what is taken apart. -/
theorem told_fullSplat (hs : TellsOn l suffixes) (h : Told l (paths ++ source.paths) c) :
    Ends (fullSplat suffixes source opening) c fun x c' => Told l (paths ++ x.paths) c' := by
  have hrest {c' : Cursor} (h : Told l (paths ++ source.paths) c') : Ends (do
      let marker := SourceRange.between opening.range (← previousRange)
      let each ← suffixes (.element marker)
      return Expr.splat source each marker marker (.between source.range each.range)) c'
        fun x c' => Told l (paths ++ x.paths) c' :=
    ends_previousRange_bind ((hs (by simpa using h)).seq fun each c₁ h₁ =>
      arrives_pure (by simpa using h₁))
  refine arrives_read_bind (still_recovering.seq fun b => ?_)
  dsimp only
  split
  · exact (still_report _ _ _).seq fun _ =>
      (framed.skipPast _).meets_seq h.advance fun _ _ h => hrest h
  · exact hrest h.advance

variable (he : Tells l e)
include he

theorem tells_indexKey : Tells l (indexKey e) := by
  refine Tells.withNewlines (fun c paths h => ?_) false
  refine (he h).track_seq fun key lost c₁ h₁ => ?_
  dsimp only
  split
  · exact (framed.skipPast _).meets_seq h₁ fun _ _ h => arrives_pure h
  refine arrives_read_bind (still_recovering.seq fun b => ?_)
  split
  · exact (still_report _ _ _).seq fun _ =>
      (framed.skipPast _).meets_seq h₁.advance fun _ _ h => arrives_pure h
  · exact arrives_pure h₁.advance

/-- A constant key is dropped, any other stands behind what it is a key of. -/
theorem told_index (h : Told l (paths ++ source.paths) c) :
    Ends (index e source opening) c fun x c' => Told l (paths ++ x.paths) c' := by
  refine (tells_indexKey he h).seq fun key c₁ h₁ => ends_previousRange_bind ?_
  dsimp only
  split
  · exact arrives_pure (Told.step h₁.left _)
  · exact arrives_pure (by simpa using h₁)

theorem tellsOn_bracketSuffix (hs : TellsOn l suffixes) :
    TellsOn l (bracketSuffix e suffixes) := by
  intro c paths source h
  refine arrives_read_bind (arrives_peekKind_bind ?_)
  split
  · exact arrives_skip_bind (told_fullSplat hs h.advance.advance)
  · exact told_index he h.advance

theorem told_suffixStep (hs : TellsOn l suffixes) (h : Told l (paths ++ source.paths) c) :
    Ends (suffixStep e suffixes source) c fun r c' => Told l (paths ++ r.1.paths) c' := by
  refine arrives_peekKind_bind ?_
  split
  · exact (tellsOn_dotSuffix h).seq fun _ _ h => arrives_pure h
  · exact (tellsOn_bracketSuffix he hs h).seq fun _ _ h => arrives_pure h
  · exact arrives_pure h

end

/-- A grammar whose productions keep paths in the order of the source. -/
structure TellsAll (l : TokenList) (g : Grammar) : Prop where
  framed (p : Production) : Framed (g p)
  expression : Tells l (g .expression)
  operand : Tells l (g .operand)
  suffixes : TellsOn l fun x => g (.suffixes x)

variable {g : Grammar}

/-- A name that stands for a variable begins a path. -/
theorem told_nameExpr (h : Told l paths c) (hk : c.peek.kind = .identifier) :
    Told l (paths ++ (nameExpr c.peek).paths) c.advance := by
  have hliteral (v : Value) : Told l (paths ++ (Expr.literal v c.peek.range).paths) c.advance := by
    simpa using h.advance
  unfold nameExpr
  split
  · exact hliteral _
  · exact hliteral _
  · exact hliteral _
  · exact h.concat (by rw [hk]; decide) ⟨hk, rfl⟩

theorem framed_closeParenthesis (opening : Token) : Framed (closeParenthesis opening) := by
  refine framed.bind framed.peek fun close => ?_
  split
  · exact framed.bind (framed.report _ _ _ rfl) fun _ => framed.bind framed.recover fun _ =>
      framed.skip
  · exact framed.skip

section
variable (hg : TellsAll l g)
include hg

theorem told_nameOrCall (h : Told l paths c) (hk : c.peek.kind = .identifier) :
    Ends (nameOrCall g) c fun x c' => Told l (paths ++ x.paths) c' := by
  refine arrives_read_bind (arrives_peekKind_bind ?_)
  split
  · exact arrives_read_bind (tells_call hg.expression (hg.framed _) _ h.advance.advance)
  · exact arrives_pure (told_nameExpr h hk)

theorem tells_unary (op : UnaryOp) : Tells l (unary g op) := fun c paths h =>
  arrives_read_bind ((hg.operand h.advance).seq fun x c₁ h₁ => arrives_pure (by simpa using h₁))

theorem tells_parenthesized : Tells l (parenthesized g) := by
  intro c paths h
  refine arrives_read_bind (Tells.withNewlines (fun c paths h => ?_) false h.advance)
  refine (hg.expression h).observe_seq fun x reported c₁ h₁ => ?_
  dsimp only
  split
  · exact (framed.skipPast _).meets_seq h₁ fun _ _ h => arrives_pure h
  · exact (framed_closeParenthesis _).meets_seq h₁ fun _ _ h => arrives_pure h

theorem tells_term : Tells l (term g) := by
  intro c paths h
  have he := hg.expression
  have hf := hg.framed .expression
  refine arrives_peek_bind ?_
  split <;> rename_i hk
  · exact tells_parenthesized hg h
  · exact arrives_skip_bind ((still_numberValue _).seq fun _ =>
      arrives_pure (by simpa using h.advance))
  · exact told_nameOrCall hg h hk
  · exact arrives_skip_bind (tells_template he hf _ _ h.advance)
  · exact arrives_skip_bind (tells_template he hf _ _ h.advance)
  · exact tells_unary hg _ h
  · exact tells_unary hg _ h
  · exact arrives_skip_bind (tells_tuple he hf h.advance)
  · exact arrives_skip_bind (tells_object he hf h.advance)
  · exact tells_invalid h

theorem tellsOn_suffixes : TellsOn l (suffixes g) := fun _ _ _ h =>
  ends_iterate (advances_suffixStep (hg.framed _) fun _ => hg.framed _)
    (told_suffixStep hg.expression hg.suffixes) h.inMode.ends h

theorem tells_operand : Tells l (operand g) := fun _ _ h =>
  (tells_term hg h).seq fun _ _ h => tellsOn_suffixes hg h

/-- One level more. -/
theorem TellsAll.production : TellsAll l (production g) where
  framed := Parser.framed.production hg.framed
  expression := tells_conditional hg.expression (tells_operand hg)
    (Parser.framed.operand hg.framed)
  operand := tells_operand hg
  suffixes := tellsOn_suffixes hg

end

theorem tellsAll_grammar (depth : Nat) : TellsAll l (grammar depth) := by
  induction depth with
  | zero =>
    exact
      { framed := framed.grammar 0
        expression := tells_invalid
        operand := tells_invalid
        suffixes := fun _ _ _ h => still_invalid.seq fun _ => arrives_pure h }
  | succ depth ih => exact ih.production

/-- The paths of an expression stand in the order of the source. -/
theorem tells_expression : Tells l expression := by
  intro c paths h b hd
  have heq : expression ⟨c, b⟩ = grammar (c.remaining + 1) .expression ⟨c, b⟩ := rfl
  rw [heq]
  exact (tellsAll_grammar _).expression h b (heq ▸ hd)

end HclSyntax.Parser
