import HclSyntax.Proofs.Grouping.Place
import HclSyntax.Proofs.Grouping.Tree

namespace HclSyntax.Parser

open HclSyntax.Cursor (Bare onward_bare)
open HclSyntax.Expr (Grouped GroupedPart Tight)

variable {D : Prop}

/-- All answers at places without parentheses are grouped. -/
def GivesGrouped (D : Prop) (p : Parser Expr) : Prop := p.AnswersOn (Bare D) (Grouped D)

/-- All answers at places without parentheses are operands of the operators of level `k`. -/
def GivesTight (D : Prop) (k : Nat) (p : Parser Expr) : Prop := p.AnswersOn (Bare D) (Tight D k)

/-- All answers at places without parentheses are operands of any operator. -/
abbrev GivesOperand (D : Prop) : Parser Expr → Prop := GivesTight D BinaryOp.levels.length

theorem GivesTight.grouped {p : Parser Expr} {k : Nat} (h : GivesTight D k p) : GivesGrouped D p :=
  fun s hs => (h s hs).grouped

theorem givesTight_invalid (k : Nat) : GivesTight D k invalid :=
  onward_bare.answers_after framed.peek fun _ =>
    onward_bare.answers_after (framed_reportFirst _ _ _) fun _ =>
      onward_bare.answers_after framed.recover fun _ => answersOn_pure Expr.tight_literal

variable {expression operand tighter : Parser Expr} {opening : Token}

theorem givesTight_operators {k : Nat} {level : Level} {levels : List Level}
    (hk : BinaryOp.levels.drop k = level :: levels) (h : GivesTight D (k + 1) tighter)
    (hf : Framed tighter) : GivesTight D k (operators level tighter) := by
  refine onward_bare.answers_track hf h fun lhs lost hl => ?_
  have hl : lhs.Tight D k := hl.mono (Nat.le_succ k)
  dsimp only
  split
  · exact answersOn_pure hl
  -- what is folded so far stays an operand of this level
  refine onward_bare.answers_iterate (framed.operatorStep hf level) (fun lhs hl => ?_) hl
  refine onward_bare.answers_after framed.peekKind fun kind => ?_
  split
  · exact answersOn_pure hl
  rename_i op hop
  obtain rfl : op.level = k := BinaryOp.level_of_lookup hk hop
  refine onward_bare.answers_after framed.skip fun _ => onward_bare.answers_track hf h
    fun rhs lost hr => ?_
  dsimp only
  split
  · exact answersOn_pure hl
  · refine answersOn_pure ⟨.of_children ⟨hl.binds, hr.binds⟩ ?_, Nat.le_refl _⟩
    simpa [Expr.children] using ⟨hl.grouped, hr.grouped⟩

theorem givesTight_binary (h : GivesOperand D operand) (hf : Framed operand) :
    GivesTight D 0 (binary operand) := by
  -- on the levels that are left, which begin at the place `k` of the table
  suffices hall : ∀ (levels : List Level) (k : Nat), BinaryOp.levels.drop k = levels →
      k ≤ BinaryOp.levels.length → Framed (levels.foldr operators operand) ∧
        GivesTight D k (levels.foldr operators operand) from (hall _ 0 rfl (Nat.zero_le _)).2
  intro levels
  induction levels with
  | nil => exact fun k _ hle => ⟨hf, fun s hs => (h s hs).mono hle⟩
  | cons level levels ih =>
    intro k hk hle
    have hlt : k < BinaryOp.levels.length := by
      refine Nat.lt_of_not_le fun hge => ?_
      rw [List.drop_eq_nil_of_le hge] at hk
      cases hk
    have hrest : BinaryOp.levels.drop (k + 1) = levels := by
      rw [← List.tail_drop, hk]
      rfl
    obtain ⟨hframed, htight⟩ := ih (k + 1) hrest hlt
    exact ⟨framed.operators hframed level, givesTight_operators hk htight hframed⟩

theorem givesGrouped_conditional (he : GivesGrouped D expression) (hfe : Framed expression)
    (ho : GivesOperand D operand) (hfo : Framed operand) :
    GivesGrouped D (conditional expression operand) := by
  refine onward_bare.answers_after framed.peek fun start => ?_
  -- all early returns give the condition alone
  refine onward_bare.answers_track (framed.binary hfo) (givesTight_binary ho hfo)
    fun condition lost hc => ?_
  dsimp only
  split
  · exact answersOn_pure hc.grouped
  refine onward_bare.answers_after framed.peekKind fun kind => ?_
  split
  · exact answersOn_pure hc.grouped
  refine onward_bare.answers_after framed.skip fun _ => onward_bare.answers_track hfe he
    fun ifTrue lost ht => ?_
  dsimp only
  split
  · exact answersOn_pure hc.grouped
  refine onward_bare.answers_after framed.peek fun colon => ?_
  split
  · exact onward_bare.answers_after (framed.report _ _ _ rfl) fun _ => answersOn_pure hc.grouped
  refine onward_bare.answers_after framed.skip fun _ => onward_bare.answers_track hfe he
    fun ifFalse lost hf => ?_
  dsimp only
  split
  · exact answersOn_pure hc.grouped
  · refine answersOn_pure (.of_children hc.binds ?_)
    simpa [Expr.children] using ⟨hc.grouped, ht, hf⟩

theorem givesTight_abandonComprehension (k : Nat) :
    GivesTight D k (abandonComprehension opening) :=
  onward_bare.answers_after (framed.skipPast _) fun _ =>
    onward_bare.answers_after framed.previousRange fun _ => answersOn_pure Expr.tight_literal

section
variable (he : GivesGrouped D expression) (hf : Framed expression)
include he hf

theorem givesOperand_comprehensionResult (keyVar : Option String) (valueVar : String)
    {collection : Expr} (hc : collection.Grouped D) :
    GivesOperand D (comprehensionResult expression opening keyVar valueVar collection) := by
  have hpair : (resultPair expression).AnswersOn (Bare D) fun r =>
      (∀ e ∈ r.1, e.Grouped D) ∧ r.2.Grouped D := by
    refine onward_bare.answers_seq hf he fun first hfirst =>
      onward_bare.answers_after framed.peekKind fun kind => ?_
    split
    · exact onward_bare.answers_after framed.skip fun _ => onward_bare.answers_seq hf he
        fun value hv => answersOn_pure ⟨by simpa using hfirst, hv⟩
    · exact answersOn_pure ⟨by simp, hfirst⟩
  have hfilter : (filter expression).AnswersOn (Bare D) fun r => ∀ e ∈ r, e.Grouped D := by
    refine onward_bare.answers_after (framed.atKeyword _) fun b => ?_
    split
    · exact onward_bare.answers_after framed.skip fun _ => onward_bare.answers_seq hf he
        fun e h => answersOn_pure (by simpa using h)
    · exact answersOn_pure (by simp)
  refine onward_bare.answers_track (framed.resultPair hf) hpair fun r lost hr => ?_
  obtain ⟨key, value⟩ := r
  dsimp only
  split
  · exact givesTight_abandonComprehension _
  refine onward_bare.answers_after framed.groupingEllipsis fun ellipsis =>
    onward_bare.answers_track (framed.filter hf) hfilter fun condition lost hcond => ?_
  dsimp only
  split
  · exact givesTight_abandonComprehension _
  refine onward_bare.answers_after framed.closeComprehension fun close =>
    onward_bare.answers_after (framed.checkResult _ _ _ _) fun _ =>
      answersOn_pure ⟨.of_children trivial ?_, trivial⟩
  simpa [Expr.children, or_imp, forall_and] using ⟨hc, hr.1, hr.2, hcond⟩

theorem givesOperand_comprehension : GivesOperand D (comprehension expression opening) := by
  refine onward_bare.answers_withNewlines (onward_bare.answers_after framed.skip fun _ =>
    onward_bare.answers_after framed.binders fun names => ?_) false
  split
  · exact givesTight_abandonComprehension _
  refine onward_bare.answers_track hf he fun collection lost hc => ?_
  dsimp only
  split
  · exact givesTight_abandonComprehension _
  refine onward_bare.answers_after framed.peekKind fun kind => ?_
  split
  · exact onward_bare.answers_after (framed.reportComprehension _) fun _ =>
      givesTight_abandonComprehension _
  · exact onward_bare.answers_after framed.skip fun _ =>
      givesOperand_comprehensionResult he hf _ _ hc

theorem givesOperand_tuple : GivesOperand D (tuple expression opening) := by
  have hstep (items : List Expr) (h : ∀ i ∈ items, i.Grouped D) :
      (tupleStep expression opening items).AnswersOn (Bare D) fun r => ∀ i ∈ r.1, i.Grouped D := by
    refine onward_bare.answers_after framed.peekKind fun kind => ?_
    split
    · exact onward_bare.answers_after framed.skip fun _ => answersOn_pure h
    refine onward_bare.answers_track hf he fun item lost hitem => ?_
    have hitems : ∀ i ∈ items ++ [item], i.Grouped D := by
      simpa [or_imp, forall_and] using ⟨h, hitem⟩
    dsimp only
    split
    · exact onward_bare.answers_after (framed.skipPast _) fun _ => answersOn_pure hitems
    refine onward_bare.answers_after framed.peek fun next => ?_
    split
    · exact onward_bare.answers_after framed.skip fun _ => answersOn_pure hitems
    · exact onward_bare.answers_after framed.skip fun _ => answersOn_pure hitems
    · exact onward_bare.answers_after (framed_reportFirst _ _ _) fun _ =>
        onward_bare.answers_after (framed.skipPast _) fun _ => answersOn_pure hitems
  refine onward_bare.answers_withNewlines
    (onward_bare.answers_after (framed.atKeyword _) fun b => ?_) false
  split
  · exact givesOperand_comprehension he hf
  · refine onward_bare.answers_seq (framed.iterate (framed.tupleStep hf) _)
      (onward_bare.answers_iterate (framed.tupleStep hf) hstep (by simp)) fun items h => ?_
    exact onward_bare.answers_after framed.previousRange fun _ =>
      answersOn_pure ⟨.of_children trivial h, trivial⟩

theorem answersOn_objectItem {items : List (Expr × Expr)}
    (h : ∀ i ∈ items, i.1.Grouped D ∧ i.2.Grouped D) :
    (objectItem expression opening items).AnswersOn (Bare D) fun r =>
      ∀ i ∈ r.1, i.1.Grouped D ∧ i.2.Grouped D := by
  refine onward_bare.answers_after framed.peek fun start =>
    onward_bare.answers_track hf he fun key lost hk => ?_
  dsimp only
  split
  · exact onward_bare.answers_after (framed.skipPast _) fun _ => answersOn_pure h
  refine onward_bare.answers_after framed.peek fun next => ?_
  split
  · exact onward_bare.answers_after (framed_reportFirst _ _ _) fun _ =>
      onward_bare.answers_after (framed.skipPast _) fun _ => answersOn_pure h
  refine onward_bare.answers_after framed.skip fun _ =>
    onward_bare.answers_track hf he fun value lost hv => ?_
  have hkey : (if start.kind = .openParen then key else objectKey key start).Grouped D := by
    unfold objectKey
    repeat' split
    all_goals first | exact Expr.grouped_literal | exact hk
  have hitems : ∀ i ∈ items ++
      [(if start.kind = .openParen then key else objectKey key start, value)],
      i.1.Grouped D ∧ i.2.Grouped D := by
    intro i hi
    rcases List.mem_append.mp hi with hi | hi
    · exact h i hi
    · exact List.mem_singleton.mp hi ▸ ⟨hkey, hv⟩
  dsimp only
  split
  · exact onward_bare.answers_after (framed.skipPast _) fun _ => answersOn_pure hitems
  · exact onward_bare.answers_after framed.objectSeparator fun more => answersOn_pure hitems

theorem givesOperand_object : GivesOperand D (object expression opening) := by
  have hstep (items : List (Expr × Expr)) (h : ∀ i ∈ items, i.1.Grouped D ∧ i.2.Grouped D) :
      (objectStep expression opening items).AnswersOn (Bare D) fun r =>
        ∀ i ∈ r.1, i.1.Grouped D ∧ i.2.Grouped D := by
    refine onward_bare.answers_after framed.peekKind fun kind => ?_
    split
    · exact onward_bare.answers_after framed.skip fun _ => answersOn_pure h
    · exact onward_bare.answers_after framed.skip fun _ => answersOn_pure h
    · exact answersOn_objectItem he hf h
  refine onward_bare.answers_withNewlines
    (onward_bare.answers_after (framed.atKeyword _) fun b => ?_) true
  split
  · exact givesOperand_comprehension he hf
  refine onward_bare.answers_seq (framed.iterate (framed.objectStep hf) _)
    (onward_bare.answers_iterate (framed.objectStep hf) hstep (by simp)) fun items h => ?_
  refine onward_bare.answers_after framed.previousRange fun _ =>
    answersOn_pure ⟨.of_children trivial fun x hx => ?_, trivial⟩
  obtain ⟨i, hi, hx⟩ := List.mem_flatMap.mp hx
  simp only [List.mem_cons, List.not_mem_nil, or_false] at hx
  rcases hx with rfl | rfl
  · exact (h i hi).1
  · exact (h i hi).2

end

variable {e : Expr}

theorem givesOperand_attributeSplat (h : e.Tight D BinaryOp.levels.length) (dot star : Token) :
    GivesOperand D (attributeSplat e dot star) := by
  refine onward_bare.answers_after (framed.iterate framed.splatStep _) fun a =>
    answersOn_pure ⟨.of_children h.isOperand ?_, trivial⟩
  have helement (r : SourceRange) : (Expr.element r).Grouped D :=
    .of_children trivial (by simp [Expr.children])
  have heach (r r' : SourceRange) (steps : Traversal) :
      (Expr.relativeTraversal (.element r) steps r').Grouped D :=
    .of_children trivial (by simpa [Expr.children] using helement r)
  simp only [Expr.children, List.forall_mem_cons]
  refine ⟨h.grouped, ?_, by simp⟩
  split
  · exact helement _
  · exact heach _ _ _

theorem givesOperand_dotSuffix (h : e.Tight D BinaryOp.levels.length) :
    GivesOperand D (dotSuffix e) := by
  refine onward_bare.answers_after framed.read fun dot =>
    onward_bare.answers_after framed.peek fun next => ?_
  split
  · exact onward_bare.answers_after framed.skip fun _ => answersOn_pure (h.step _)
  · exact onward_bare.answers_after framed.skip fun _ => givesOperand_attributeSplat h dot next
  · exact onward_bare.answers_after (framed.report _ _ _ rfl) fun _ =>
      onward_bare.answers_after framed.recover fun _ => answersOn_pure h

theorem givesOperand_fullSplat {suffixes : Expr → Parser Expr}
    (h : e.Tight D BinaryOp.levels.length) (hf : ∀ x, Framed (suffixes x))
    (hs : ∀ r, GivesOperand D (suffixes (.element r))) :
    GivesOperand D (fullSplat suffixes e opening) := by
  have hrest (r : SourceRange) : GivesOperand D (do
      let marker := SourceRange.between opening.range r
      let each ← suffixes (.element marker)
      return .splat e each marker marker (.between e.range each.range)) := by
    refine onward_bare.answers_seq (hf _) (hs _) fun each heach =>
      answersOn_pure ⟨.of_children h.isOperand ?_, trivial⟩
    simpa [Expr.children] using ⟨h.grouped, heach.grouped⟩
  refine onward_bare.answers_after framed.read fun close =>
    onward_bare.answers_after (fun _ => .refl _) fun b => ?_
  split
  · exact onward_bare.answers_after (framed.report _ _ _ rfl) fun _ =>
      onward_bare.answers_after (framed.skipPast _) fun _ =>
        onward_bare.answers_after framed.previousRange hrest
  · exact onward_bare.answers_after framed.previousRange hrest

theorem givesOperand_index (he : GivesGrouped D expression) (hf : Framed expression)
    (h : e.Tight D BinaryOp.levels.length) : GivesOperand D (index expression e opening) := by
  have hkey : GivesGrouped D (indexKey expression) := by
    refine onward_bare.answers_withNewlines
      (onward_bare.answers_track hf he fun key lost hk => ?_) false
    dsimp only
    split
    · exact onward_bare.answers_after (framed.skipPast _) fun _ => answersOn_pure hk
    refine onward_bare.answers_after framed.read fun close =>
      onward_bare.answers_after (fun _ => .refl _) fun b => ?_
    split
    · exact onward_bare.answers_after (framed.report _ _ _ rfl) fun _ =>
        onward_bare.answers_after (framed.skipPast _) fun _ => answersOn_pure hk
    · exact answersOn_pure hk
  refine onward_bare.answers_seq (framed.indexKey hf) hkey fun key hk =>
    onward_bare.answers_after framed.previousRange fun r => ?_
  dsimp only
  split
  · exact answersOn_pure (h.step _)
  · refine answersOn_pure ⟨.of_children h.isOperand ?_, trivial⟩
    simpa [Expr.children] using ⟨h.grouped, hk⟩

theorem answersOn_suffixStep {suffixes : Expr → Parser Expr} (he : GivesGrouped D expression)
    (hfe : Framed expression) (hf : ∀ x, Framed (suffixes x))
    (hs : ∀ r, GivesOperand D (suffixes (.element r)))
    (h : e.Tight D BinaryOp.levels.length) :
    (suffixStep expression suffixes e).AnswersOn (Bare D) fun r =>
      r.1.Tight D BinaryOp.levels.length := by
  refine onward_bare.answers_after framed.peekKind fun kind => ?_
  split
  · exact (givesOperand_dotSuffix h).map fun _ hx => hx
  · have hbracket : GivesOperand D (bracketSuffix expression suffixes e) := by
      refine onward_bare.answers_after framed.read fun opening =>
        onward_bare.answers_after framed.peekKind fun kind => ?_
      split
      · exact onward_bare.answers_after framed.skip fun _ => givesOperand_fullSplat h hf hs
      · exact givesOperand_index he hfe h
    exact hbracket.map fun _ hx => hx
  · exact answersOn_pure h

section
variable (he : GivesGrouped D expression) (hf : Framed expression)
include he hf

theorem answersOn_directive (hd : D) : (directive expression opening).AnswersOn (Bare D) fun r =>
    ∀ p ∈ r.1, p.Grouped D := by
  have hloop (key : Option String) (value : String) :
      (loopCollection expression key value).AnswersOn (Bare D) fun d =>
        ∀ x ∈ d, ∀ r, (TemplatePart.directive x r).Grouped D := by
    refine onward_bare.answers_after (framed.atKeyword _) fun b => ?_
    split
    · exact onward_bare.answers_after framed.skip fun _ => he.map fun e h =>
        by simpa [TemplatePart.Grouped] using ⟨hd, h⟩
    · exact onward_bare.answers_after framed.peek fun _ =>
        onward_bare.answers_after (framed_reportFirst _ _ _) fun _ => answersOn_pure (by simp)
  have hheader : (loopHeader expression).AnswersOn (Bare D) fun d =>
      ∀ x ∈ d, ∀ r, (TemplatePart.directive x r).Grouped D := by
    refine onward_bare.answers_after framed.read fun first => ?_
    split
    · exact onward_bare.answers_after (framed_reportFirst _ _ _) fun _ => answersOn_pure (by simp)
    refine onward_bare.answers_after framed.peekKind fun kind => ?_
    split
    · exact hloop _ _
    refine onward_bare.answers_after framed.skip fun _ =>
      onward_bare.answers_after framed.read fun second => ?_
    split
    · exact onward_bare.answers_after (framed_reportFirst _ _ _) fun _ => answersOn_pure (by simp)
    · exact hloop _ _
  have hcontent (keyword : Token) :
      (directiveContent expression opening keyword).AnswersOn (Bare D) fun d =>
        ∀ x ∈ d, ∀ r, (TemplatePart.directive x r).Grouped D := by
    unfold directiveContent
    split
    · exact he.map fun e h => by simpa [TemplatePart.Grouped] using ⟨hd, h⟩
    case h_4 => exact hheader
    case h_6 =>
      exact onward_bare.answers_after (framed_reportFirst _ _ _) fun _ => answersOn_pure (by simp)
    all_goals exact answersOn_pure (by simpa [TemplatePart.Grouped] using hd)
  refine onward_bare.answers_after framed.peek fun keyword => ?_
  split
  · exact onward_bare.answers_after (framed_reportFirst _ _ _) fun _ =>
      onward_bare.answers_after (framed.skipPast _) fun _ => answersOn_pure (by simp)
  refine onward_bare.answers_after framed.skip fun _ =>
    onward_bare.answers_seq (framed.directiveContent hf keyword) (hcontent keyword) fun d hd => ?_
  split
  · exact onward_bare.answers_after (framed.skipPast _) fun _ => answersOn_pure (by simp)
  · exact onward_bare.answers_after (framed.closeSequence _ _ rfl) fun strip =>
      onward_bare.answers_after framed.previousRange fun r =>
        answersOn_pure (by simpa using hd _ rfl _)

theorem answersOn_interpolation (start : SourceRange) :
    (interpolation expression start opening).AnswersOn (Bare D) fun r => r.1.Grouped D := by
  have hinner : (withNewlines false do
      let e ← expression
      return (e, ← closeSequence .extraInInterpolation start)).AnswersOn (Bare D)
        fun r => r.1.Grouped D :=
    onward_bare.answers_withNewlines (onward_bare.answers_seq hf he fun e h =>
      onward_bare.answers_after (framed.closeSequence .extraInInterpolation start rfl)
        fun strip => answersOn_pure h) false
  intro s hs
  exact hinner s hs

omit he hf in
theorem givesOperand_templateExpr {parts : List TemplatePart} (hp : ∀ p ∈ parts, p.Grouped D)
    (stop range : SourceRange) : GivesOperand D (templateExpr parts stop range) := by
  have hexprs : ∀ e ∈ (Nesting.ofParts parts stop).1, e.GroupedPart D :=
    Nesting.keeps_grouped.ofParts (fun p h => (hp p h).carries) stop
  refine onward_bare.answers_after (framed.tell (specific_ofParts _ _)) fun _ => ?_
  -- what is wrapped was interpolated, so it is no directive
  split
  · rename_i e r inner heq
    obtain rfl : e = inner := (List.cons.inj heq).1
    refine answersOn_pure ⟨.of_children trivial ?_, trivial⟩
    simpa [Expr.children, TemplatePart.Grouped] using hp _ (List.mem_singleton_self _)
  · exact answersOn_pure ⟨Expr.grouped_template hexprs, trivial⟩

theorem answersOn_templateStep (closer : TokenKind) (start : SourceRange) {a : TemplateParts}
    (h : ∀ p ∈ a.parts, p.Grouped D) :
    (templateStep expression closer start a).AnswersOn (Bare D) fun r =>
      ∀ p ∈ r.1.parts, p.Grouped D := by
  have hbefore (t : Token) : ∀ p ∈ a.before t, p.Grouped D :=
    TemplateParts.forall_before (fun _ _ => trivial) h t
  refine bare_read fun next hparen hdir => ?_
  split
  · exact answersOn_pure h
  split
  · exact onward_bare.answers_after (framed.chunk next) fun _ =>
      answersOn_pure (by simpa [or_imp, forall_and, TemplatePart.Grouped])
  · exact onward_bare.answers_after (framed.chunk next) fun _ =>
      answersOn_pure (by simpa [or_imp, forall_and, TemplatePart.Grouped])
  · refine (answersOn_interpolation he hf _).map fun r hr => ?_
    simpa [or_imp, forall_and] using ⟨hbefore next, hr⟩
  · rename_i hk
    refine AnswersOn.map (onward_bare.answers_withNewlines
      (answersOn_directive he hf (hdir hk)) false) fun r hr => ?_
    simpa [or_imp, forall_and] using ⟨hbefore next, hr⟩
  · refine onward_bare.answers_after (framed_reportFirst _ _ _) fun _ => ?_
    dsimp only
    split
    · exact onward_bare.answers_after framed.recover fun _ => answersOn_pure h
    · exact onward_bare.answers_after (framed.skipPast _) fun _ =>
        onward_bare.answers_after framed.recover fun _ => answersOn_pure h

theorem givesOperand_template (start : SourceRange) (closer : TokenKind) :
    GivesOperand D (template expression start closer) := by
  refine onward_bare.answers_after framed.peek fun t => ?_
  refine onward_bare.answers_seq (framed.iterate (framed.templateStep hf closer _) _)
    (onward_bare.answers_iterate (framed.templateStep hf closer _)
      (I := fun a => ∀ p ∈ a.parts, p.Grouped D)
      (fun a h => answersOn_templateStep he hf closer _ h) (by simp)) fun a ha =>
        onward_bare.answers_after framed.previousRange fun close => ?_
  refine givesOperand_templateExpr ?_ _ _
  split
  · simp [TemplatePart.Grouped]
  · exact ha

end

/-- A grammar that keeps to precedence where nothing is in parentheses. -/
structure GroupedGrammar (D : Prop) (g : Grammar) : Prop where
  framed (p : Production) : Framed (g p)
  expression : GivesGrouped D (g .expression)
  operand : GivesOperand D (g .operand)
  suffixes (e : Expr) (h : e.Tight D BinaryOp.levels.length) : GivesOperand D (g (.suffixes e))

theorem tight_nameExpr (t : Token) (k : Nat) : (nameExpr t).Tight D k := by
  unfold nameExpr
  split
  · exact Expr.tight_literal
  · exact Expr.tight_literal
  · exact Expr.tight_literal
  · exact ⟨.of_children trivial (by simp [Expr.children]), trivial⟩

section
variable {g : Grammar} (hg : GroupedGrammar D g)
include hg

theorem givesOperand_term : GivesOperand D (term g) := by
  have hunary (op : UnaryOp) : GivesOperand D (unary g op) := by
    refine onward_bare.answers_after framed.read fun _ => hg.operand.map fun e h => ?_
    exact ⟨.of_children h.isOperand (by simpa [Expr.children] using h.grouped), trivial⟩
  -- neither a parenthesis begins an operand, nor does one follow a name
  refine bare_peek fun start hparen _ => ?_
  split
  · rename_i hk
    exact absurd hk hparen
  · exact onward_bare.answers_after framed.skip fun _ =>
      onward_bare.answers_after (framed.numberValue _) fun _ => answersOn_pure Expr.tight_literal
  · refine onward_bare.answers_after framed.read fun name => bare_peekKind fun kind hparen => ?_
    rw [if_neg hparen]
    exact answersOn_pure (tight_nameExpr name _)
  · exact onward_bare.answers_after framed.skip fun _ =>
      givesOperand_template hg.expression (hg.framed _) _ _
  · exact onward_bare.answers_after framed.skip fun _ =>
      givesOperand_template hg.expression (hg.framed _) _ _
  · exact hunary _
  · exact hunary _
  · exact onward_bare.answers_after framed.skip fun _ =>
      givesOperand_tuple hg.expression (hg.framed _)
  · exact onward_bare.answers_after framed.skip fun _ =>
      givesOperand_object hg.expression (hg.framed _)
  · exact givesTight_invalid _

theorem givesOperand_suffixes {e : Expr} (h : e.Tight D BinaryOp.levels.length) :
    GivesOperand D (suffixes g e) := by
  have helement (r : SourceRange) : (Expr.element r).Tight D BinaryOp.levels.length :=
    ⟨.of_children trivial (by simp [Expr.children]), trivial⟩
  exact onward_bare.answers_iterate
    (framed.suffixStep (hg.framed _) fun _ => hg.framed _)
    (fun _ h => answersOn_suffixStep hg.expression (hg.framed _) (fun _ => hg.framed _)
      (fun r => hg.suffixes _ (helement r)) h) h

theorem givesOperand_operand : GivesOperand D (Parser.operand g) :=
  onward_bare.answers_seq (framed.term hg.framed) (givesOperand_term hg)
    fun _ h => givesOperand_suffixes hg h

theorem groupedGrammar_production : GroupedGrammar D (production g) where
  framed p := framed.production hg.framed p
  expression := givesGrouped_conditional hg.expression (hg.framed _) (givesOperand_operand hg)
    (framed.operand hg.framed)
  operand := givesOperand_operand hg
  suffixes _ h := givesOperand_suffixes hg h

end

theorem groupedGrammar_grammar (depth : Nat) : GroupedGrammar D (grammar depth) := by
  induction depth with
  | zero =>
    exact ⟨framed.grammar 0, (givesTight_invalid 0).grouped, givesTight_invalid _, fun _ h =>
      onward_bare.answers_after framed.invalid fun _ => answersOn_pure h⟩
  | succ depth ih => exact groupedGrammar_production ih

theorem givesGrouped_expression : GivesGrouped D Parser.expression :=
  fun s => (groupedGrammar_grammar (s.cursor.remaining + 1)).expression s

end HclSyntax.Parser
