import HclSyntax.Proofs.Meaning.Path
import HclSyntax.Proofs.Meaning.Template
import HclSyntax.Proofs.Termination

namespace HclSyntax

namespace Parser

theorem constantAt_step (e : Expr) (s : TraversalStep) (r : SourceRange) :
    (e.step s).ConstantAt r := by cases e <;> trivial

section
variable {r : SourceRange} {a : Expr} (ha : a.ConstantAt r)
include ha

theorem answers_dotSuffix : (dotSuffix a).Answers (·.ConstantAt r) := by
  refine answers_bind fun dot => answers_bind fun next => ?_
  split
  · exact answers_bind fun _ => answers_pure (constantAt_step ..)
  · exact answers_bind fun _ => answers_bind fun _ => answers_pure trivial
  · exact answers_bind fun _ => answers_bind fun _ => answers_pure ha

omit ha in
theorem answers_bracketSuffix (e : Parser Expr) (suffixes : Expr → Parser Expr) :
    (bracketSuffix e suffixes a).Answers (·.ConstantAt r) := by
  have hsplat (marker : SourceRange) (stop : Expr → SourceRange) (each : Parser Expr) :
      (each >>= fun v => pure (Expr.splat a v marker marker (stop v))).Answers
        (·.ConstantAt r) := answers_bind fun _ => answers_pure trivial
  refine answers_bind fun opening => answers_bind fun k => ?_
  split
  · refine answers_bind fun _ => answers_bind fun close => answers_bind fun _ => ?_
    split
    · exact answers_bind fun _ => answers_bind fun _ => answers_bind fun _ => hsplat _ _ _
    · exact answers_bind fun _ => hsplat _ _ _
  · refine answers_bind fun key => answers_bind fun _ => ?_
    dsimp only
    split
    · exact answers_pure (constantAt_step ..)
    · exact answers_pure trivial

/-- Only an expression without suffixes may be a constant. -/
theorem answers_suffixStep (e : Parser Expr) (suffixes : Expr → Parser Expr) :
    (suffixStep e suffixes a).Answers (·.1.ConstantAt r) := by
  refine answers_bind fun k => ?_
  split
  · exact (answers_dotSuffix ha).seq fun _ hb => answers_pure hb
  · exact (answers_bracketSuffix e suffixes).seq fun _ hb => answers_pure hb
  · exact answers_pure ha

theorem answers_suffixes (g : Grammar) : (suffixes g a).Answers (·.ConstantAt r) :=
  .iterate (fun _ hb => answers_suffixStep hb _ _) ha

theorem answers_operatorStep (tighter : Parser Expr) (level : Level) :
    (operatorStep tighter level a).Answers (·.1.ConstantAt r) := by
  refine answers_bind fun k => ?_
  split
  · exact answers_pure ha
  · refine answers_bind fun _ => answers_bind fun b => ?_
    dsimp only
    split
    · exact answers_pure ha
    · exact answers_pure trivial

end

theorem namesConstants_peek_bind {f : Token → Parser Expr}
    (hf : ∀ t, t.kind = .identifier → NamesConstants (f t)) : NamesConstants (peek >>= f) :=
  fun s hk => hf _ hk s hk

theorem namesConstants_read_bind {f : Token → Parser Expr}
    (hf : ∀ t, (f t).Answers (Expr.ConstantAt t.range)) : NamesConstants (read >>= f) :=
  fun s _ => hf _ { s with cursor := s.cursor.advance }

section
variable {p : Parser Expr} (hp : NamesConstants p)
include hp

theorem NamesConstants.bind {f : Expr → Parser Expr}
    (hf : ∀ a r, a.ConstantAt r → (f a).Answers (·.ConstantAt r)) : NamesConstants (p >>= f) :=
  fun s hk => hf _ _ (hp s hk) (p s).state

theorem NamesConstants.track_seq {f : Expr × Bool → Parser Expr}
    (hf : ∀ a lost r, a.ConstantAt r → (f (a, lost)).Answers (·.ConstantAt r)) :
    NamesConstants (track p >>= f) :=
  fun s hk => hf _ _ _ (hp s hk) (track p s).state

theorem namesConstants_binary : NamesConstants (binary p) := by
  unfold binary
  induction BinaryOp.levels with
  | nil => exact hp
  | cons level levels ih =>
    refine ih.track_seq fun lhs lost r hl => ?_
    dsimp only
    split
    · exact answers_pure hl
    · exact .iterate (fun _ hb => answers_operatorStep hb _ _) hl

theorem namesConstants_conditional (e : Parser Expr) : NamesConstants (conditional e p) := by
  refine namesConstants_peek_bind fun start _ => ?_
  refine (namesConstants_binary hp).track_seq fun condition lost r hc => ?_
  dsimp only
  split
  · exact answers_pure hc
  refine answers_bind fun _ => ?_
  split
  · exact answers_pure hc
  refine answers_bind fun _ => answers_bind fun r => ?_
  obtain ⟨ifTrue, lost⟩ := r
  dsimp only
  split
  · exact answers_pure hc
  refine answers_bind fun _ => ?_
  split
  · exact answers_bind fun _ => answers_pure hc
  refine answers_bind fun _ => answers_bind fun r => ?_
  obtain ⟨ifFalse, lost⟩ := r
  dsimp only
  split
  · exact answers_pure hc
  · exact answers_pure trivial

end

theorem constantAt_nameExpr (t : Token) : (nameExpr t).ConstantAt t.range := by
  unfold nameExpr
  split <;> trivial

theorem namesConstants_nameOrCall (g : Grammar) : NamesConstants (nameOrCall g) := by
  refine namesConstants_read_bind fun name => answers_bind fun k => ?_
  split
  · exact answers_bind fun _ => answers_bind fun _ => answers_bind fun _ => answers_pure trivial
  · exact answers_pure (constantAt_nameExpr _)

theorem namesConstants_term (g : Grammar) : NamesConstants (term g) := by
  refine namesConstants_peek_bind fun start hk => ?_
  rw [hk]
  exact namesConstants_nameOrCall g

theorem namesConstants_grammar (n : Nat) : NamesConstants (grammar n .expression) := by
  cases n with
  | zero => exact fun s _ => trivial
  | succ n =>
    exact namesConstants_conditional ((namesConstants_term _).bind fun _ _ ha =>
      answers_suffixes ha _) _

variable {x : Likeness}

/-- A grammar whose productions are read alike in like places. -/
structure GrammarAlike (x : Likeness) (g : Grammar) : Prop where
  framed (p : Production) : Framed (g p)
  expression : Likewise x (g .expression) (g .expression)
  operand : Likewise x (g .operand) (g .operand)
  suffixes {e e' : Expr} (h : x.Like e e') : Likewise x (g (.suffixes e)) (g (.suffixes e'))
  constant : NamesConstants (g .expression)

theorem like_nameExpr {t t' : Token} (h : x.Like t t') (hk : t.kind = .identifier) :
    x.Like (nameExpr t) (nameExpr t') := by
  unfold nameExpr
  rw [← h.text (by rw [hk]; rfl)]
  split
  · exact (Likeness.Like.refl _).literal h.tokenRange
  · exact (Likeness.Like.refl _).literal h.tokenRange
  · exact (Likeness.Like.refl _).literal h.tokenRange
  · exact ⟨rfl, fun hx => by rw [h.eq hx]⟩

section
variable {p p' : Parser Expr} (hf : Framed p) (hp : Likewise x p p)
include hf hp

theorem likewise_binary : Likewise x (binary p) (binary p) := by
  suffices h : ∀ levels, levels ⊆ BinaryOp.levels →
      Framed (levels.foldr operators p) ∧
        Likewise x (levels.foldr operators p) (levels.foldr operators p) from
    (h _ (List.Subset.refl _)).2
  intro levels hl
  induction levels with
  | nil => exact ⟨hf, hp⟩
  | cons level levels ih =>
    obtain ⟨htight, htighter⟩ := ih fun l h => hl (List.mem_cons_of_mem _ h)
    have hadvances := advances_operatorStep htight (hl List.mem_cons_self)
    refine ⟨framed.operators htight level, htighter.track_seq fun lhs lhs' lost hlhs => ?_⟩
    dsimp only
    split
    · exact likewise_pure hlhs
    refine .iterate hadvances hadvances (fun a a' ha => likewise_peekKind_bind fun k => ?_) hlhs
    split
    · exact likewise_pure (ha.pair (.refl _))
    refine likewise_skip.bind fun _ _ _ => htighter.track_seq fun rhs rhs' lost hrhs => ?_
    dsimp only
    split
    · exact likewise_pure (ha.pair (.refl _))
    · refine likewise_pure (.pair ⟨congrArg₂ (Tree.binary _) ha.same hrhs.same, fun hx => ?_⟩
        (.refl _))
      rw [ha.eq hx, hrhs.eq hx]

theorem likewise_conditional {e : Parser Expr} (he : Likewise x e e) :
    Likewise x (conditional e p) (conditional e p) := by
  refine likewise_peek.bind fun start start' hstart => ?_
  refine (likewise_binary hf hp).track_seq fun condition condition' lost hc => ?_
  dsimp only
  split
  · exact likewise_pure hc
  refine likewise_peekKind_bind fun k => ?_
  split
  · exact likewise_pure hc
  refine likewise_skip.bind fun _ _ _ => he.track_seq fun ifTrue ifTrue' lost ht => ?_
  dsimp only
  split
  · exact likewise_pure hc
  refine likewise_peek.bind fun colon colon' hcolon => ?_
  rw [← hcolon.kind]
  split
  · exact (likewise_report _ hcolon.tokenRange
      (hstart.tokenRange.between hcolon.tokenRange).some).done hc
  refine likewise_skip.bind fun _ _ _ => he.track_seq fun ifFalse ifFalse' lost hf => ?_
  dsimp only
  split
  · exact likewise_pure hc
  · refine likewise_pure ⟨(Tree.conditional.injEq ..).mpr ⟨hc.same, ht.same, hf.same⟩,
      fun hx => ?_⟩
    rw [hstart.eq hx, hc.eq hx, ht.eq hx, hf.eq hx]

end

theorem likewise_closeParenthesis {opening opening' : Token} (ho : x.Like opening opening') :
    Likewise x (closeParenthesis opening) (closeParenthesis opening') := by
  refine likewise_peek.bind fun close close' hclose => ?_
  rw [← hclose.kind]
  split
  · exact (likewise_report _ hclose.tokenRange
      (ho.tokenRange.between hclose.tokenRange).some).bind fun _ _ _ =>
        likewise_recover.bind fun _ _ _ => likewise_skip
  · exact likewise_skip

section
variable {g : Grammar} (hg : GrammarAlike x g)
include hg

theorem GrammarAlike.read : ReadAlike x (g .expression) := ⟨hg.framed _, hg.expression, hg.constant⟩

theorem likewise_nameOrCall : LikewiseAt x .identifier (nameOrCall g) (nameOrCall g) := by
  refine .read_bind fun name name' hname hk => likewise_peekKind_bind fun k => ?_
  split
  · exact likewise_read.bind fun opening opening' ho => likewise_call ho hg.read hname hk
  · exact likewise_pure (like_nameExpr hname hk)

theorem likewise_unary (op : UnaryOp) : Likewise x (unary g op) (unary g op) := by
  refine likewise_read.bind fun symbol symbol' hs => hg.operand.map fun e e' he => ?_
  exact ⟨congrArg (Tree.unary op) he.same, fun hx => by rw [hs.eq hx, he.eq hx]⟩

theorem likewise_parenthesized : Likewise x (parenthesized g) (parenthesized g) := by
  refine likewise_read.bind fun opening opening' ho => Likewise.withNewlines ?_ fun _ => rfl
  refine hg.expression.observe_seq fun e e' reported he => ?_
  dsimp only
  split
  · exact (likewise_skipPast _).done he
  · exact (likewise_closeParenthesis ho).done he

theorem likewise_term (hj : x.joined = true → x.braces = false) :
    Likewise x (term g) (term g) := by
  have hquoted {start start' : Token} (hs : x.Like start start') :
      Likewise x (skip >>= fun _ => quotedTemplate (g .expression) start)
        (skip >>= fun _ => quotedTemplate (g .expression) start') :=
    likewise_skip.bind fun _ _ _ => likewise_quotedTemplate hg.expression (hg.framed _) hs
  refine likewise_peek_at fun start start' hstart => ?_
  rw [← hstart.kind]
  generalize hk : start.kind = k
  split
  · exact (likewise_parenthesized hg).at _
  · exact (likewise_skip.bind fun _ _ _ => (likewise_numberValue hstart hk).map fun v v' hv =>
      hv.literal hstart.tokenRange).at _
  · exact likewise_nameOrCall hg
  · exact (hquoted hstart).at _
  · exact (hquoted hstart).at _
  · exact (likewise_unary hg _).at _
  · exact (likewise_unary hg _).at _
  · exact (likewise_skip.bind fun _ _ _ => likewise_tuple hstart hg.read).at _
  · cases hj' : x.joined with
    | true => exact likewiseAt_openBrace (hj hj')
    | false => exact (likewise_skip.bind fun _ _ _ => likewise_object hstart hg.read hj').at _
  · exact likewise_invalid.at _

theorem likewise_suffixes {e e' : Expr} (he : x.Like e e') :
    Likewise x (suffixes g e) (suffixes g e') := by
  have hadvances : Advances (suffixStep (g .expression) fun each => g (.suffixes each)) :=
    advances_suffixStep (hg.framed _) fun each => hg.framed _
  exact .iterate hadvances hadvances
    (fun _ _ => likewise_suffixStep hg.expression fun _ _ => hg.suffixes) he

theorem likewise_operand (hj : x.joined = true → x.braces = false) :
    Likewise x (operand g) (operand g) :=
  (likewise_term hg hj).bind fun _ _ => likewise_suffixes hg

end

variable (hj : x.joined = true → x.braces = false)
include hj

theorem grammarAlike_grammar (n : Nat) : GrammarAlike x (grammar n) := by
  induction n with
  | zero =>
    exact ⟨framed.grammar 0, likewise_invalid, likewise_invalid,
      fun he => likewise_invalid.done he, namesConstants_grammar 0⟩
  | succ n ih =>
    have hoperand := likewise_operand ih hj
    exact ⟨framed.grammar _, likewise_conditional (framed.operand ih.framed) hoperand ih.expression,
      hoperand, likewise_suffixes ih, namesConstants_grammar _⟩

theorem likewise_expression : Likewise x expression expression := by
  have hbound (n : Nat) (s : ParseState) (hs : s.Ends) (hn : s.cursor.remaining < n) :
      grammar n .expression s = grammar (s.cursor.remaining + 1) .expression s := by
    rw [grammar_eq n]
    exact settles_production.depth _ (framed.grammar 0) n .expression s hs hn
  have h := Likewise.bounded (fun n => (grammarAlike_grammar hj n).expression) hbound hbound
  exact h

end Parser

end HclSyntax
