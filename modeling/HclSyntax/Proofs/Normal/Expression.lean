import HclSyntax.Parse
import HclSyntax.Proofs.Normal.Tree
import HclSyntax.Proofs.Reads

namespace HclSyntax

open HclSyntax.Expr (Normal)

namespace Parser

variable {α β σ : Type} {Q : β → Prop}

theorem Answers.track_seq {p : Parser α} {f : α × Bool → Parser β} {P : α → Prop}
    (h : p.Answers P) (hf : ∀ a lost, P a → (f (a, lost)).Answers Q) :
    (track p >>= f).Answers Q := fun s => hf _ _ (h s) _

theorem Answers.withNewlines {p : Parser β} (h : p.Answers Q) (newlines : Bool) :
    (withNewlines newlines p).Answers Q := fun _ => h _

/-- All answers are in normal form. -/
def GivesNormal (p : Parser Expr) : Prop := p.Answers (Normal false)

theorem givesNormal_invalid : GivesNormal invalid :=
  answers_bind fun _ => answers_bind fun _ => answers_bind fun _ =>
    answers_pure (Expr.normal_placeholder _)

variable {expression operand tighter : Parser Expr} {opening : Token}

theorem givesNormal_operators (h : GivesNormal tighter) (level : Level) :
    GivesNormal (operators level tighter) := by
  refine h.track_seq fun lhs lost hl => ?_
  dsimp only
  split
  · exact answers_pure hl
  refine Answers.iterate (fun lhs hl => answers_bind fun k => ?_) hl
  split
  · exact answers_pure hl
  refine answers_bind fun _ => h.track_seq fun rhs lost hr => ?_
  dsimp only
  split
  · exact answers_pure hl
  · exact answers_pure (.binary hl hr)

theorem givesNormal_binary (h : GivesNormal operand) : GivesNormal (binary operand) := by
  unfold binary
  induction BinaryOp.levels with
  | nil => exact h
  | cons level levels ih => exact givesNormal_operators ih level

theorem givesNormal_conditional (he : GivesNormal expression) (ho : GivesNormal operand) :
    GivesNormal (conditional expression operand) := by
  refine answers_bind fun start => (givesNormal_binary ho).track_seq fun condition lost hc => ?_
  dsimp only
  split
  · exact answers_pure hc
  refine answers_bind fun k => ?_
  split
  · exact answers_pure hc
  refine answers_bind fun _ => he.track_seq fun ifTrue lost ht => ?_
  dsimp only
  split
  · exact answers_pure hc
  refine answers_bind fun colon => ?_
  split
  · exact answers_bind fun _ => answers_pure hc
  refine answers_bind fun _ => he.track_seq fun ifFalse lost hf => ?_
  dsimp only
  split
  · exact answers_pure hc
  · exact answers_pure (.conditional hc ht hf)

theorem givesNormal_abandonComprehension : GivesNormal (abandonComprehension opening) :=
  answers_bind fun _ => answers_bind fun _ => answers_pure (Expr.normal_placeholder _)

section
variable (he : GivesNormal expression)
include he

theorem givesNormal_comprehensionResult (keyVar : Option String) (valueVar : String)
    {collection : Expr} (hc : Normal false collection) :
    GivesNormal (comprehensionResult expression opening keyVar valueVar collection) := by
  have hpair : (resultPair expression).Answers fun r =>
      (∀ e ∈ r.1, Normal false e) ∧ Normal false r.2 := by
    refine he.seq fun first hfirst => answers_bind fun k => ?_
    split
    · exact answers_bind fun _ => he.seq fun value hv => answers_pure ⟨by simpa using hfirst, hv⟩
    · exact answers_pure ⟨by simp, hfirst⟩
  have hfilter : (filter expression).Answers fun r => ∀ e ∈ r, Normal false e := by
    refine answers_bind fun b => ?_
    split
    · exact answers_bind fun _ => he.seq fun e h => answers_pure (by simpa using h)
    · exact answers_pure (by simp)
  refine hpair.track_seq fun r lost hr => ?_
  obtain ⟨key, value⟩ := r
  dsimp only
  split
  · exact givesNormal_abandonComprehension
  refine answers_bind fun ellipsis => hfilter.track_seq fun condition lost hf => ?_
  dsimp only
  split
  · exact givesNormal_abandonComprehension
  · exact answers_bind fun close => answers_bind fun _ =>
      answers_pure (.comprehension hc hr.1 hr.2 hf)

theorem givesNormal_comprehension : GivesNormal (comprehension expression opening) := by
  refine Answers.withNewlines (answers_bind fun _ => answers_bind fun names => ?_) false
  split
  · exact givesNormal_abandonComprehension
  refine he.track_seq fun collection lost hc => ?_
  dsimp only
  split
  · exact givesNormal_abandonComprehension
  refine answers_bind fun k => ?_
  split
  · exact answers_bind fun _ => givesNormal_abandonComprehension
  · exact answers_bind fun _ => givesNormal_comprehensionResult he _ _ hc

theorem givesNormal_tuple : GivesNormal (tuple expression opening) := by
  have hstep (items : List Expr) (h : ∀ i ∈ items, Normal false i) :
      (tupleStep expression opening items).Answers fun r => ∀ i ∈ r.1, Normal false i := by
    refine answers_bind fun k => ?_
    split
    · exact answers_bind fun _ => answers_pure h
    refine he.track_seq fun item lost hitem => ?_
    have hitems : ∀ i ∈ items ++ [item], Normal false i := by
      simpa [or_imp, forall_and] using ⟨h, hitem⟩
    dsimp only
    split
    · exact answers_bind fun _ => answers_pure hitems
    refine answers_bind fun next => ?_
    split
    · exact answers_bind fun _ => answers_pure hitems
    · exact answers_bind fun _ => answers_pure hitems
    · exact answers_bind fun _ => answers_bind fun _ => answers_pure hitems
  refine Answers.withNewlines (answers_bind fun b => ?_) false
  split
  · exact givesNormal_comprehension he
  · exact (Answers.iterate hstep (by simp)).seq fun items h =>
      answers_bind fun _ => answers_pure (.tuple h)

theorem answers_objectItem {items : List (Expr × Expr)}
    (h : ∀ i ∈ items, Normal false i.1 ∧ Normal false i.2) :
    (objectItem expression opening items).Answers fun r =>
      ∀ i ∈ r.1, Normal false i.1 ∧ Normal false i.2 := by
  refine answers_bind fun start => he.track_seq fun key lost hk => ?_
  dsimp only
  split
  · exact answers_bind fun _ => answers_pure h
  refine answers_bind fun next => ?_
  split
  · exact answers_bind fun _ => answers_bind fun _ => answers_pure h
  refine answers_bind fun _ => he.track_seq fun value lost hv => ?_
  have hkey : Normal false (if start.kind = .openParen then key else objectKey key start) := by
    split
    · exact hk
    · exact Expr.normal_objectKey hk
  have hitems : ∀ i ∈ items ++
      [(if start.kind = .openParen then key else objectKey key start, value)],
      Normal false i.1 ∧ Normal false i.2 := by
    intro i hi
    rcases List.mem_append.mp hi with hi | hi
    · exact h i hi
    · exact List.mem_singleton.mp hi ▸ ⟨hkey, hv⟩
  dsimp only
  split
  · exact answers_bind fun _ => answers_pure hitems
  · exact answers_bind fun more => answers_pure hitems

theorem givesNormal_object : GivesNormal (object expression opening) := by
  have hstep (items : List (Expr × Expr)) (h : ∀ i ∈ items, Normal false i.1 ∧ Normal false i.2) :
      (objectStep expression opening items).Answers fun r =>
        ∀ i ∈ r.1, Normal false i.1 ∧ Normal false i.2 := by
    refine answers_bind fun k => ?_
    split
    · exact answers_bind fun _ => answers_pure h
    · exact answers_bind fun _ => answers_pure h
    · exact answers_objectItem he h
  refine Answers.withNewlines (answers_bind fun b => ?_) true
  split
  · exact givesNormal_comprehension he
  · exact (Answers.iterate hstep (by simp)).seq fun items h => answers_bind fun _ =>
      answers_pure (.object (fun i hi => (h i hi).1) fun i hi => (h i hi).2)

theorem givesNormal_call (name : Token) : GivesNormal (call expression name opening) := by
  have hstep (a : Arguments) (h : ∀ x ∈ a.args, Normal false x) :
      (argumentStep expression name opening a).Answers fun r => ∀ x ∈ r.1.args, Normal false x := by
    refine answers_bind fun k => ?_
    split
    · exact answers_bind fun _ => answers_pure h
    refine he.track_seq fun arg lost harg => ?_
    have hargs : ∀ x ∈ a.args ++ [arg], Normal false x := by
      simpa [or_imp, forall_and] using ⟨h, harg⟩
    dsimp only
    split
    · exact answers_bind fun _ => answers_pure hargs
    refine answers_bind fun sep => ?_
    split
    · exact answers_pure hargs
    · exact answers_pure hargs
    · refine answers_bind fun k => ?_
      split
      · exact answers_bind fun _ => answers_pure hargs
      · exact answers_bind fun _ => answers_bind fun _ => answers_pure hargs
    · exact answers_bind fun _ => answers_bind fun _ => answers_pure hargs
    · exact answers_bind fun _ => answers_bind fun _ => answers_pure hargs
  refine ((Answers.iterate hstep (a := ⟨[], false⟩) (by simp)).withNewlines false).seq
    fun a h => ?_
  exact answers_bind fun close => answers_pure (.call h)

end

variable {element : Bool} {e : Expr}

theorem answers_attributeSplat (h : Normal element e) (dot star : Token) :
    (attributeSplat e dot star).Answers (Normal element) := by
  have hstep (a : SplatSteps) (ha : ∀ s ∈ a.steps, s.isRoot = false) :
      (splatStep a).Answers fun r => ∀ s ∈ r.1.steps, s.isRoot = false := by
    refine answers_bind fun k => ?_
    split
    · exact answers_pure ha
    refine answers_bind fun dot => answers_bind fun name => ?_
    dsimp only
    split
    · refine answers_bind fun _ => answers_pure ?_
      simpa [or_imp, forall_and, TraversalStep.isRoot] using ha
    · refine answers_bind fun _ => answers_bind fun key => answers_pure ?_
      simpa [or_imp, forall_and, TraversalStep.isRoot] using ha
    · exact answers_bind fun _ => answers_bind fun _ => answers_pure ha
  refine (Answers.iterate hstep (by simp)).seq fun a ha => answers_pure (.splat h ?_)
  split
  · exact .element
  · rename_i hne
    exact .relativeTraversal ⟨fun h => hne (List.isEmpty_iff.mpr h), ha⟩ rfl .element

theorem answers_dotSuffix_normal (h : Normal element e) :
    (dotSuffix e).Answers (Normal element) := by
  refine answers_bind fun dot => answers_bind fun next => ?_
  split
  · exact answers_bind fun _ => answers_pure (h.step rfl)
  · exact answers_bind fun _ => answers_attributeSplat h dot next
  · exact answers_bind fun _ => answers_bind fun _ => answers_pure h

theorem answers_fullSplat {suffixes : Expr → Parser Expr} (h : Normal element e)
    (hs : ∀ r, (suffixes (.element r)).Answers (Normal true)) :
    (fullSplat suffixes e opening).Answers (Normal element) := by
  have hrest (r : SourceRange) : Answers (do
      let marker := SourceRange.between opening.range r
      let each ← suffixes (.element marker)
      return .splat e each marker marker (.between e.range each.range)) (Normal element) :=
    (hs _).seq fun each heach => answers_pure (.splat h heach)
  refine answers_bind fun close => answers_bind fun b => ?_
  split
  · exact answers_bind fun _ => answers_bind fun _ => answers_bind hrest
  · exact answers_bind hrest

theorem answers_index (he : GivesNormal expression) (h : Normal element e) :
    (index expression e opening).Answers (Normal element) := by
  have hkey : GivesNormal (indexKey expression) := by
    refine Answers.withNewlines (he.track_seq fun key lost hk => ?_) false
    dsimp only
    split
    · exact answers_bind fun _ => answers_pure hk
    refine answers_bind fun close => answers_bind fun b => ?_
    split
    · exact answers_bind fun _ => answers_bind fun _ => answers_pure hk
    · exact answers_pure hk
  refine hkey.seq fun key hk => answers_bind fun r => ?_
  dsimp only
  split
  · exact answers_pure (h.step rfl)
  · rename_i hn
    exact answers_pure (.index h hk (Expr.not_isConstant_of_staticKey? hn))

theorem answers_suffixStep_normal {suffixes : Expr → Parser Expr} (he : GivesNormal expression)
    (hs : ∀ r, (suffixes (.element r)).Answers (Normal true)) (h : Normal element e) :
    (suffixStep expression suffixes e).Answers fun r => Normal element r.1 := by
  refine answers_bind fun k => ?_
  split
  · exact (answers_dotSuffix_normal h).seq fun _ hx => answers_pure hx
  · have hb : (bracketSuffix expression suffixes e).Answers (Normal element) := by
      refine answers_bind fun opening => answers_bind fun k => ?_
      split
      · exact answers_bind fun _ => answers_fullSplat h hs
      · exact answers_index he h
    exact hb.seq fun _ hx => answers_pure hx
  · exact answers_pure h

section
variable (he : GivesNormal expression)
include he

theorem answers_directive : (directive expression opening).Answers fun r =>
    ∀ p ∈ r.1, p.Normal := by
  have hloop (key : Option String) (value : String) : (loopCollection expression key value).Answers
      fun d => ∀ x ∈ d, ∀ r, (TemplatePart.directive x r).Normal := by
    refine answers_bind fun b => ?_
    split
    · exact answers_bind fun _ => he.seq fun e h =>
        answers_pure (by simpa [TemplatePart.Normal] using h)
    · exact answers_bind fun _ => answers_bind fun _ => answers_pure (by simp)
  have hheader : (loopHeader expression).Answers
      fun d => ∀ x ∈ d, ∀ r, (TemplatePart.directive x r).Normal := by
    refine answers_bind fun first => ?_
    split
    · exact answers_bind fun _ => answers_pure (by simp)
    refine answers_bind fun k => ?_
    split
    · exact hloop _ _
    refine answers_bind fun _ => answers_bind fun second => ?_
    split
    · exact answers_bind fun _ => answers_pure (by simp)
    · exact hloop _ _
  have hcontent (keyword : Token) : (directiveContent expression opening keyword).Answers
      fun d => ∀ x ∈ d, ∀ r, (TemplatePart.directive x r).Normal := by
    unfold directiveContent
    split
    · exact he.seq fun e h => answers_pure (by simpa [TemplatePart.Normal] using h)
    case h_4 => exact hheader
    case h_6 => exact answers_bind fun _ => answers_pure (by simp)
    all_goals exact answers_pure (by simp [TemplatePart.Normal])
  refine answers_bind fun keyword => ?_
  split
  · exact answers_bind fun _ => answers_bind fun _ => answers_pure (by simp)
  refine answers_bind fun _ => (hcontent keyword).seq fun d hd => ?_
  split
  · exact answers_bind fun _ => answers_pure (by simp)
  · exact answers_bind fun strip => answers_bind fun r =>
      answers_pure (by simpa using hd _ rfl _)

theorem answers_interpolation (start : SourceRange) :
    (interpolation expression start opening).Answers fun r => r.1.Normal := by
  have hinner : (withNewlines false do
      let e ← expression
      return (e, ← closeSequence .extraInInterpolation start)).Answers fun r => Normal false r.1 := by
    refine Answers.withNewlines (he.seq fun e h => answers_bind fun strip => ?_) false
    exact fun _ => h
  exact hinner.seq fun r h => answers_bind fun stop => fun _ => h

omit he in
theorem givesNormal_templateExpr {parts : List TemplatePart} (hne : parts ≠ [])
    (hp : ∀ p ∈ parts, p.Normal) (stop range : SourceRange) :
    GivesNormal (templateExpr parts stop range) := by
  have hexprs : ∀ e ∈ (Nesting.ofParts parts stop).1, Normal false e :=
    Nesting.keeps_normal.ofParts (fun p h => (hp p h).carries) stop
  have hsome : (Nesting.ofParts parts stop).1 ≠ [] := Nesting.ofParts_ne_nil hne
  unfold templateExpr
  generalize Nesting.ofParts parts stop = r at hexprs hsome
  obtain ⟨exprs, problems⟩ := r
  refine answers_bind fun _ => ?_
  split
  · exact answers_pure (.templateWrap (hexprs _ (List.mem_singleton_self _)))
  · exact answers_pure (.template hsome hexprs)

theorem givesNormal_template (start : SourceRange) (closer : TokenKind) :
    GivesNormal (template expression start closer) := by
  have hstep (start : SourceRange) (a : TemplateParts) (h : ∀ p ∈ a.parts, p.Normal) :
      (templateStep expression closer start a).Answers fun r => ∀ p ∈ r.1.parts, p.Normal := by
    have hbefore (t : Token) : ∀ p ∈ a.before t, p.Normal :=
      TemplateParts.forall_before (fun _ _ => trivial) h t
    refine answers_bind fun next => ?_
    split
    · exact answers_pure h
    split
    · exact answers_bind fun _ => answers_pure (by simpa [or_imp, forall_and, TemplatePart.Normal])
    · exact answers_bind fun _ => answers_pure (by simpa [or_imp, forall_and, TemplatePart.Normal])
    · refine (answers_interpolation he _).seq fun r hr => answers_pure ?_
      simpa [or_imp, forall_and] using ⟨hbefore next, hr⟩
    · refine (answers_directive he).withNewlines false |>.seq fun r hr => answers_pure ?_
      simpa [or_imp, forall_and] using ⟨hbefore next, hr⟩
    · refine answers_bind fun _ => ?_
      dsimp only
      split
      · exact answers_bind fun _ => answers_pure h
      · exact answers_bind fun _ => answers_bind fun _ => answers_pure h
  refine answers_bind fun t => (Answers.iterate (hstep _) (a := ⟨[], false⟩) (by simp)).seq
    fun a ha => answers_bind fun close => ?_
  -- a template without a part is one empty text
  refine givesNormal_templateExpr ?_ ?_ _ _
  · split
    · exact List.cons_ne_nil _ _
    · rename_i hne
      exact fun h => hne (List.isEmpty_iff.mpr h)
  · split
    · simp [TemplatePart.Normal]
    · exact ha

end

/-- A grammar all answers of which are in normal form. Suffixes go on with the chain that they are
given, be it that of an element. -/
structure NormalGrammar (g : Grammar) : Prop where
  expression : GivesNormal (g .expression)
  operand : GivesNormal (g .operand)
  suffixes (element : Bool) (e : Expr) (h : Normal element e) :
    (g (.suffixes e)).Answers (Normal element)

theorem normal_nameExpr (t : Token) : Normal false (nameExpr t) := by
  unfold nameExpr
  split
  · exact .literal
  · exact .literal
  · exact .literal
  · exact .scopeTraversal ⟨_, [], rfl, rfl, by simp⟩

section
variable {g : Grammar} (hg : NormalGrammar g)
include hg

theorem givesNormal_term : GivesNormal (term g) := by
  have hunary (op : UnaryOp) : GivesNormal (unary g op) :=
    answers_bind fun _ => hg.operand.seq fun _ h => answers_pure (.unary h)
  refine answers_bind fun start => ?_
  split
  · refine answers_bind fun opening => Answers.withNewlines ?_ false
    intro s
    have h : Normal false (g .expression s).value := hg.expression s
    change Normal false ((do
      if !(g .expression s).diagnostics.isEmpty then skipPast .closeParen
      else closeParenthesis opening
      return (g .expression s).value : Parser Expr) (g .expression s).state).value
    split <;> exact h
  · exact answers_bind fun _ => answers_bind fun _ => answers_pure .literal
  · refine answers_bind fun name => answers_bind fun k => ?_
    split
    · exact answers_bind fun opening => givesNormal_call hg.expression name
    · exact answers_pure (normal_nameExpr name)
  · exact answers_bind fun _ => givesNormal_template hg.expression _ _
  · exact answers_bind fun _ => givesNormal_template hg.expression _ _
  · exact hunary _
  · exact hunary _
  · exact answers_bind fun _ => givesNormal_tuple hg.expression
  · exact answers_bind fun _ => givesNormal_object hg.expression
  · exact givesNormal_invalid

theorem answers_suffixes_normal {element : Bool} {e : Expr} (h : Normal element e) :
    (suffixes g e).Answers (Normal element) :=
  Answers.iterate (fun _ h => answers_suffixStep_normal hg.expression
    (fun _ => hg.suffixes true _ .element) h) h

theorem givesNormal_operand : GivesNormal (Parser.operand g) :=
  (givesNormal_term hg).seq fun _ h => answers_suffixes_normal hg h

theorem normalGrammar_production : NormalGrammar (production g) where
  expression := givesNormal_conditional hg.expression (givesNormal_operand hg)
  operand := givesNormal_operand hg
  suffixes _ _ h := answers_suffixes_normal hg h

end

theorem normalGrammar_grammar (depth : Nat) : NormalGrammar (grammar depth) := by
  induction depth with
  | zero => exact ⟨givesNormal_invalid, givesNormal_invalid, fun _ _ h =>
      answers_bind fun _ => answers_pure h⟩
  | succ depth ih => exact normalGrammar_production ih

theorem givesNormal_expression : GivesNormal Parser.expression :=
  fun s => (normalGrammar_grammar (s.cursor.remaining + 1)).expression s

end Parser

end HclSyntax
