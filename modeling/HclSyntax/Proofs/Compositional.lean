import HclSyntax.Parse

namespace HclSyntax

/-- Whether a mistake says only that what stands there fits nowhere. Such a mistake is reported
where it may follow from none before it. -/
def ErrorCode.isGeneric : ErrorCode → Bool
  | missingNewline | unclosedBlock | quotedName | invalidExpression | nestedSplat
  | extraCharacters | unterminatedTemplate => true
  | _ => false

/-- Told in any case: an error that says what is wrong. -/
def Diagnostic.IsSpecific (d : Diagnostic) : Prop :=
  d.severity = .error ∧ d.code.isGeneric = false

namespace Parser

/-- A property of single parsers that can be put together along a program. -/
structure Compositional (P : (α : Type) → Parser α → Prop) : Prop where
  pure {α : Type} (a : α) : P α (pure a)
  bind {α β : Type} {p : Parser α} {f : α → Parser β} (hp : P α p) (hf : ∀ a, P β (f a)) :
    P β (p >>= f)
  peek : P Token peek
  skip : P Unit skip
  previousRange : P SourceRange previousRange
  /-- After a generic mistake the way is lost at once. Characters after a whole expression are not
  reported inside of one. -/
  reportLost {α : Type} {q : Parser α} (p : Problem) (r : SourceRange) (x : Option SourceRange)
    (hq : P α q) (hp : p.code ≠ .extraCharacters) :
    P α (reportFirst p r x >>= fun _ => recover >>= fun _ => q)
  recover : P Unit recover
  tell {ds : List Diagnostic} (h : ∀ d ∈ ds, d.IsSpecific) : P Unit (tell ds)
  reportFirst (p : Problem) (r : SourceRange) (x : Option SourceRange)
    (hp : p.code.isGeneric = false) : P Unit (reportFirst p r x)
  observe {α : Type} {p : Parser α} (hp : P α p) : P (α × Bool) (observe p)
  track {α : Type} {p : Parser α} (hp : P α p) : P (α × Bool) (track p)
  /-- After a recovery a mistake goes unreported, and nothing is done about it. -/
  unlessRecovering {α : Type} {wrong : Prop} [Decidable wrong] {p q : Parser α} (m : Problem)
    (r : SourceRange) (x : Option SourceRange) (hp : P α p) (hq : P α q)
    (hm : m.code.isGeneric = false) :
    P α (recovering >>= fun b => if wrong ∧ !b then report m r x >>= fun _ => p else q)
  withNewlines {α : Type} {p : Parser α} (newlines : Bool) (hp : P α p) :
    P α (withNewlines newlines p)
  /-- A bound on the nesting or the length of a run may be taken from the state. -/
  bounded {α : Type} {p : Nat → Parser α} (hp : ∀ n, P α (p n)) :
    P α fun s => p (s.cursor.remaining + 1) s

theorem specific_decodeFrom (filename : String) (quoted : Bool) (clusters : List (List Char))
    (w : StringChunk.Pending) (p : Pos) :
    ∀ d ∈ (StringChunk.decodeFrom filename quoted w p clusters).2, d.IsSpecific := by
  induction clusters generalizing w p with
  | nil => simp [StringChunk.decodeFrom]
  | cons cluster clusters ih =>
    intro d hd
    simp only [StringChunk.decodeFrom, List.mem_append, Option.mem_toList,
      Option.map_eq_some_iff] at hd
    obtain ⟨_, _, rfl⟩ | hd := hd
    · exact ⟨rfl, rfl⟩
    · exact ih _ _ d hd

theorem specific_directive {n : Nesting} (h : ∀ d ∈ n.diagnostics, d.IsSpecific)
    (x : Directive) (r : SourceRange) :
    ∀ d ∈ (n.directive x r).diagnostics, d.IsSpecific := by
  have hfail (n : Nesting) (h : ∀ d ∈ n.diagnostics, d.IsSpecific) (p : Problem)
      (hp : p.code.isGeneric = false) : ∀ d ∈ (n.fail p r).diagnostics, d.IsSpecific := by
    intro d hd
    rw [Nesting.fail, Nesting.diagnostics_push, List.mem_append, List.mem_singleton] at hd
    obtain hd | rfl := hd
    · exact h d hd
    · exact ⟨rfl, hp⟩
  unfold Nesting.directive
  split
  case h_1 | h_2 | h_3 => exact h
  case h_7 | h_10 => simpa only [Nesting.diagnostics_push] using h
  all_goals
    apply hfail
    · exact h
    · rfl

theorem specific_ofParts (parts : List TemplatePart) (stop : SourceRange) :
    ∀ d ∈ (Nesting.ofParts parts stop).2, d.IsSpecific := by
  have hfold (n : Nesting) (h : ∀ d ∈ n.diagnostics, d.IsSpecific) :
      ∀ d ∈ (parts.foldl Nesting.part n).diagnostics, d.IsSpecific := by
    induction parts generalizing n with
    | nil => exact h
    | cons p parts ih =>
      apply ih
      cases p with
      | directive x r => exact specific_directive h x r
      | _ => simpa only [Nesting.part, Nesting.diagnostics_push] using h
  have h := hfold ⟨[], [], []⟩ (by simp)
  unfold Nesting.ofParts Nesting.finish
  split
  · exact h
  · intro d hd
    rw [List.mem_append, List.mem_map] at hd
    obtain hd | ⟨f, _, rfl⟩ := hd
    · exact h d hd
    · cases f <;> exact ⟨rfl, rfl⟩

namespace Compositional

variable {P : (α : Type) → Parser α → Prop} (h : Compositional P) {α σ : Type}
include h

section
variable {expression : Parser Expr} (he : P Expr expression) {opening : Token}

theorem map {β : Type} {p : Parser α} (hp : P α p) (f : α → β) :
    P β (p >>= fun a => Pure.pure (f a)) :=
  h.bind hp fun _ => h.pure _

theorem peekKind : P TokenKind peekKind := h.map h.peek _

theorem read : P Token read := h.bind h.peek fun t => h.bind h.skip fun _ => h.pure t

theorem atKeyword (keyword : String) : P Bool (atKeyword keyword) := h.map h.peek _

theorem report (p : Problem) (r : SourceRange) (x : Option SourceRange)
    (hp : p.code.isGeneric = false) : P Unit (report p r x) :=
  h.tell fun _ hd => List.mem_singleton.mp hd ▸ ⟨rfl, hp⟩

theorem observe_seq {β : Type} {p : Parser α} {f : α × Bool → Parser β} (hp : P α p)
    (hf : ∀ a reported, P β (f (a, reported))) : P β (Parser.observe p >>= f) :=
  h.bind (h.observe hp) fun r => hf r.1 r.2

theorem track_seq {β : Type} {p : Parser α} {f : α × Bool → Parser β} (hp : P α p)
    (hf : ∀ a lost, P β (f (a, lost))) : P β (Parser.track p >>= f) :=
  h.bind (h.track hp) fun r => hf r.1 r.2

theorem invalid : P Expr invalid :=
  h.bind h.peek fun _ => h.reportLost _ _ _ (h.pure _) (by decide)

theorem iterate {step : σ → Parser (σ × Bool)} (hs : ∀ a, P (σ × Bool) (step a)) (a : σ) :
    P σ (iterate step a) := by
  have hn (n : Nat) (a : σ) : P σ (iterateFor step n a) := by
    induction n generalizing a with
    | zero => exact h.bind h.invalid fun _ => h.pure a
    | succ n ih =>
      refine h.bind (hs a) fun r => ?_
      obtain ⟨b, more⟩ := r
      cases more with
      | true => exact ih b
      | false => exact h.pure b
  exact h.bounded fun n => hn n a

theorem skipPastStep (closer : TokenKind) (depth : Nat) :
    P (Nat × Bool) (skipPastStep closer depth) := by
  refine h.bind h.read fun t => ?_
  dsimp only
  repeat' split
  all_goals exact h.pure _

theorem skipPast (closer : TokenKind) : P Unit (skipPast closer) :=
  h.bind h.recover fun _ => h.map (h.iterate (h.skipPastStep closer) 0) _

theorem skipItemStep (opened : List TokenKind) :
    P (List TokenKind × Bool) (skipItemStep opened) := by
  refine h.bind h.read fun t => ?_
  dsimp only
  repeat' split
  all_goals exact h.pure _

theorem skipItem : P Unit skipItem :=
  h.bind h.recover fun _ => h.map (h.iterate h.skipItemStep []) _

/-- Skipping begins with a recovery. -/
theorem reportSkipPast {q : Parser α} (p : Problem) (r : SourceRange) (x : Option SourceRange)
    (closer : TokenKind) (hq : P α q) (hp : p.code ≠ .extraCharacters) :
    P α (Parser.reportFirst p r x >>= fun _ => Parser.skipPast closer >>= fun _ => q) :=
  h.reportLost p r x
    (h.bind (h.map (h.iterate (h.skipPastStep closer) 0) fun _ => ()) fun _ => hq) hp

theorem numberValue (t : Token) : P Value (numberValue t) := by
  unfold Parser.numberValue
  split
  · exact h.pure _
  · exact h.bind (h.report _ _ _ rfl) fun _ => h.pure _

theorem chunk (t : Token) : P String (chunk t) :=
  h.map (h.tell (specific_decodeFrom _ _ _ _ _)) _

theorem quotedStep (q : QuotedText) : P (QuotedText × Bool) (quotedStep opening q) := by
  refine h.bind h.read fun t => ?_
  split
  · exact h.pure _
  · exact h.map (h.chunk t) _
  · exact h.bind (h.report _ _ _ rfl) fun _ => h.map (h.skipPast _) _
  · exact h.bind (h.report _ _ _ rfl) fun _ => h.map (h.skipPast _) _
  · exact h.map (h.report _ _ _ rfl) _
  · exact h.bind (h.report _ _ _ rfl) fun _ => h.map (h.skipPast _) _

theorem quotedString : P (String × SourceRange) (quotedString opening) :=
  h.map (h.iterate h.quotedStep _) _

theorem reportComprehension (p : ComprehensionProblem) :
    P Unit (reportComprehension opening p) :=
  h.bind h.peek fun _ => h.reportFirst _ _ _ rfl

theorem abandonComprehension : P Expr (abandonComprehension opening) :=
  h.bind (h.skipPast _) fun _ => h.map h.previousRange _

theorem inKeyword (key : Option String) (value : String) :
    P (Option (Option String × String)) (inKeyword opening key value) := by
  refine h.bind (h.atKeyword "in") fun b => ?_
  split
  · exact h.map h.skip _
  · exact h.map (h.reportComprehension _) _

theorem binders : P (Option (Option String × String)) (binders opening) := by
  refine h.bind h.peekKind fun k => ?_
  split
  · exact h.map (h.reportComprehension _) _
  refine h.bind h.read fun first => h.bind h.peekKind fun k => ?_
  split
  · exact h.inKeyword _ _
  refine h.bind h.skip fun _ => h.bind h.peekKind fun k => ?_
  split
  · exact h.map (h.reportComprehension _) _
  · exact h.bind h.read fun second => h.inKeyword _ _

theorem groupingEllipsis : P (Option Token) groupingEllipsis := by
  refine h.bind h.peekKind fun k => ?_
  split
  · exact h.map h.read _
  · exact h.pure _

theorem closeComprehension : P SourceRange (closeComprehension opening) := by
  refine h.bind h.peekKind fun k => ?_
  split
  · exact h.bind h.skip fun _ => h.previousRange
  · exact h.bind (h.reportComprehension _) fun _ => h.bind (h.skipPast _) fun _ => h.previousRange

theorem checkResult (key : Option Expr) (value : Expr) (ellipsis : Option Token)
    (whole : SourceRange) : P Unit (checkResult opening key value ellipsis whole) := by
  unfold Parser.checkResult
  split
  · split
    · exact h.report _ _ _ rfl
    · exact h.pure _
  · cases key <;> cases ellipsis
    · exact h.pure _
    · exact h.report _ _ _ rfl
    · exact h.map (h.report _ _ _ rfl) _
    · exact h.bind (h.report _ _ _ rfl) fun _ => h.report _ _ _ rfl

include he

theorem resultPair : P (Option Expr × Expr) (resultPair expression) := by
  refine h.bind he fun first => h.bind h.peekKind fun k => ?_
  split
  · exact h.bind h.skip fun _ => h.map he _
  · exact h.pure _

theorem filter : P (Option Expr) (filter expression) := by
  refine h.bind (h.atKeyword "if") fun b => ?_
  split
  · exact h.bind h.skip fun _ => h.map he _
  · exact h.pure _

theorem comprehensionResult (keyVar : Option String) (valueVar : String) (collection : Expr) :
    P Expr (comprehensionResult expression opening keyVar valueVar collection) := by
  refine h.bind (h.track (h.resultPair he)) fun ⟨⟨key, value⟩, lost⟩ => ?_
  dsimp only
  split
  · exact h.abandonComprehension
  refine h.bind h.groupingEllipsis fun ellipsis => ?_
  refine h.track_seq (h.filter he) fun condition lost => ?_
  dsimp only
  split
  · exact h.abandonComprehension
  · exact h.bind h.closeComprehension fun close => h.map (h.checkResult _ _ _ _) _

theorem comprehension : P Expr (comprehension expression opening) := by
  refine h.withNewlines false (h.bind h.skip fun _ => h.bind h.binders fun names => ?_)
  split
  · exact h.abandonComprehension
  refine h.track_seq he fun collection lost => ?_
  dsimp only
  split
  · exact h.abandonComprehension
  refine h.bind h.peekKind fun k => ?_
  split
  · exact h.bind (h.reportComprehension _) fun _ => h.abandonComprehension
  · exact h.bind h.skip fun _ => h.comprehensionResult he _ _ _

theorem tupleStep (items : List Expr) :
    P (List Expr × Bool) (tupleStep expression opening items) := by
  refine h.bind h.peekKind fun k => ?_
  split
  · exact h.map h.skip _
  refine h.track_seq he fun item lost => ?_
  dsimp only
  split
  · exact h.map (h.skipPast _) _
  refine h.bind h.peek fun next => ?_
  split
  · exact h.map h.skip _
  · exact h.map h.skip _
  · exact h.bind (h.reportFirst _ _ _ rfl) fun _ => h.map (h.skipPast _) _

theorem tuple : P Expr (tuple expression opening) := by
  refine h.withNewlines false (h.bind (h.atKeyword "for") fun b => ?_)
  split
  · exact h.comprehension he
  · exact h.bind (h.iterate (h.tupleStep he) []) fun _ => h.map h.previousRange _

omit he in
theorem objectSeparator : P Bool (objectSeparator opening) := by
  refine h.bind h.peek fun next => ?_
  split
  · exact h.map h.skip _
  · exact h.map h.skip _
  · exact h.map h.skip _
  · exact h.bind (h.reportFirst _ _ _ rfl) fun _ => h.map (h.skipPast _) _

omit h he in
theorem specific_missingValue (k : TokenKind) : (missingValue k).code.isGeneric = false := by
  cases k <;> rfl

theorem objectItem (items : List (Expr × Expr)) :
    P (List (Expr × Expr) × Bool) (objectItem expression opening items) := by
  refine h.bind h.peek fun start => h.track_seq he fun key lost => ?_
  dsimp only
  split
  · exact h.map (h.skipPast _) _
  refine h.bind h.peek fun next => ?_
  split
  · exact h.bind (h.reportFirst _ _ _ (specific_missingValue _)) fun _ => h.map (h.skipPast _) _
  refine h.bind h.skip fun _ => h.track_seq he fun value lost => ?_
  dsimp only
  split
  · exact h.map (h.skipPast _) _
  · exact h.map h.objectSeparator _

theorem objectStep (items : List (Expr × Expr)) :
    P (List (Expr × Expr) × Bool) (objectStep expression opening items) := by
  refine h.bind h.peekKind fun k => ?_
  split
  · exact h.map h.skip _
  · exact h.map h.skip _
  · exact h.objectItem he items

theorem object : P Expr (object expression opening) := by
  refine h.withNewlines true (h.bind (h.atKeyword "for") fun b => ?_)
  split
  · exact h.comprehension he
  · exact h.bind (h.iterate (h.objectStep he) []) fun _ => h.map h.previousRange _

theorem argumentStep (name : Token) (a : Arguments) :
    P (Arguments × Bool) (argumentStep expression name opening a) := by
  refine h.bind h.peekKind fun k => ?_
  split
  · exact h.map h.skip _
  refine h.track_seq he fun arg lost => ?_
  dsimp only
  split
  · exact h.map (h.skipPast _) _
  refine h.bind h.read fun sep => ?_
  split
  · exact h.pure _
  · exact h.pure _
  · refine h.bind h.peekKind fun k => ?_
    split
    · exact h.map h.skip _
    · exact h.bind (h.reportFirst _ _ _ rfl) fun _ => h.map (h.skipPast _) _
  · exact h.bind (h.report _ _ _ rfl) fun _ => h.map (h.skipPast _) _
  · exact h.bind (h.report _ _ _ rfl) fun _ => h.map (h.skipPast _) _

theorem call (name : Token) : P Expr (call expression name opening) :=
  h.bind (h.withNewlines false (h.iterate (h.argumentStep he name) _)) fun _ =>
    h.map h.previousRange _

omit he in
theorem splatStep (a : SplatSteps) : P (SplatSteps × Bool) (splatStep a) := by
  refine h.bind h.peekKind fun k => ?_
  split
  · exact h.pure _
  refine h.bind h.read fun dot => h.bind h.peek fun name => ?_
  split
  · exact h.map h.skip _
  · exact h.bind h.skip fun _ => h.map (h.numberValue name) _
  · exact h.reportLost _ _ _ (h.pure _) (by split <;> decide)

omit he in
theorem attributeSplat (source : Expr) (dot star : Token) :
    P Expr (attributeSplat source dot star) := h.map (h.iterate h.splatStep _) _

omit he in
theorem fullSplat {suffixes : Expr → Parser Expr} (hs : ∀ e, P Expr (suffixes e))
    (source : Expr) : P Expr (fullSplat suffixes source opening) := by
  have hrest (r : SourceRange) : P Expr (do
      let marker := SourceRange.between opening.range r
      let each ← suffixes (.element marker)
      return .splat source each marker marker (.between source.range each.range)) :=
    h.map (hs _) _
  exact h.bind h.read fun close => h.unlessRecovering _ _ _
    (h.bind (h.skipPast _) fun _ => h.bind h.previousRange hrest) (h.bind h.previousRange hrest)
    rfl

theorem indexKey : P Expr (indexKey expression) := by
  refine h.withNewlines false (h.track_seq he fun key lost => ?_)
  dsimp only
  split
  · exact h.map (h.skipPast _) _
  exact h.bind h.read fun close => h.unlessRecovering _ _ _ (h.map (h.skipPast _) _) (h.pure _) rfl

theorem index (collection : Expr) : P Expr (index expression collection opening) := by
  refine h.bind (h.indexKey he) fun key => h.bind h.previousRange fun r => ?_
  split <;> exact h.pure _

omit he in
theorem dotSuffix (e : Expr) : P Expr (dotSuffix e) := by
  refine h.bind h.read fun dot => h.bind h.peek fun next => ?_
  split
  · exact h.map h.skip _
  · exact h.bind h.skip fun _ => h.attributeSplat e dot next
  · exact h.bind (h.report _ _ _ rfl) fun _ => h.map h.recover _

theorem suffixStep {suffixes : Expr → Parser Expr} (hs : ∀ e, P Expr (suffixes e)) (e : Expr) :
    P (Expr × Bool) (suffixStep expression suffixes e) := by
  refine h.bind h.peekKind fun k => ?_
  split
  · exact h.map (h.dotSuffix e) _
  · refine h.map (h.bind h.read fun opening => h.bind h.peekKind fun k => ?_) _
    split
    · exact h.bind h.skip fun _ => h.fullSplat hs e
    · exact h.index he e
  · exact h.pure _

omit he in
theorem constantIndex (root : Token) : P (Option TraversalStep) (constantIndex root opening) := by
  have hkey : P (Option Value) (constantKey root) := by
    refine h.bind h.peek fun t => ?_
    split
    · exact h.bind h.skip fun _ => h.map (h.numberValue t) _
    · exact h.bind h.skip fun _ => h.map h.quotedString _
    · exact h.map (h.report _ _ _ (by split <;> rfl)) _
  refine h.bind hkey fun key => ?_
  split
  · exact h.pure _
  refine h.bind h.read fun close => ?_
  dsimp only
  split
  · exact h.map (h.report _ _ _ rfl) _
  · exact h.pure _

omit he in
theorem traversalStep (root : Token) (steps : Traversal) :
    P (Traversal × Bool) (traversalStep root steps) := by
  refine h.bind h.peek fun next => ?_
  split
  · exact h.pure _
  · refine h.bind h.skip fun _ => h.bind h.read fun name => ?_
    split
    · exact h.pure _
    · exact h.map (h.report _ _ _ (by split <;> rfl)) _
  · exact h.bind h.skip fun _ => h.map (h.observe (h.constantIndex root)) _
  · exact h.map (h.report _ _ _ rfl) _

omit he in
theorem traversal : P Traversal traversal := by
  refine h.bind h.read fun root => ?_
  split
  · exact h.map (h.report _ _ _ rfl) _
  · exact h.iterate (h.traversalStep root) _

omit he in
theorem closeSequence (p : Problem) (start : SourceRange)
    (hp : p.code.isGeneric = false) : P Bool (closeSequence p start) := by
  refine h.bind h.peek fun close => ?_
  split
  · exact h.map h.skip _
  · exact h.bind (h.reportFirst _ _ _ hp) fun _ => h.map (h.skipPast _) _

theorem loopCollection (key : Option String) (value : String) :
    P (Option Directive) (loopCollection expression key value) := by
  refine h.bind (h.atKeyword "in") fun b => ?_
  split
  · exact h.bind h.skip fun _ => h.map he _
  · exact h.bind h.peek fun t => h.map (h.reportFirst _ _ _ rfl) _

theorem loopHeader : P (Option Directive) (loopHeader expression) := by
  refine h.bind h.read fun first => ?_
  split
  · exact h.map (h.reportFirst _ _ _ rfl) _
  refine h.bind h.peekKind fun k => ?_
  split
  · exact h.loopCollection he _ _
  refine h.bind h.skip fun _ => h.bind h.read fun second => ?_
  split
  · exact h.map (h.reportFirst _ _ _ rfl) _
  · exact h.loopCollection he _ _

theorem directiveContent (keyword : Token) :
    P (Option Directive) (directiveContent expression opening keyword) := by
  unfold Parser.directiveContent
  split
  · exact h.map he _
  · exact h.pure _
  · exact h.pure _
  · exact h.loopHeader he
  · exact h.pure _
  · exact h.map (h.reportFirst _ _ _ rfl) _

theorem directive : P (Option TemplatePart × Bool) (directive expression opening) := by
  refine h.bind h.peek fun keyword => ?_
  split
  · exact h.bind (h.reportFirst _ _ _ rfl) fun _ => h.map (h.skipPast _) _
  refine h.bind h.skip fun _ => h.bind (h.directiveContent he keyword) fun d => ?_
  split
  · exact h.map (h.skipPast _) _
  · exact h.bind (h.closeSequence _ _ rfl) fun strip => h.map h.previousRange _

theorem interpolation (start : SourceRange) :
    P (TemplatePart × Bool) (interpolation expression start opening) :=
  h.bind (h.withNewlines false (h.bind he fun _ => h.map (h.closeSequence _ _ rfl) _)) fun _ =>
    h.map h.previousRange _

theorem templateStep (closer : TokenKind) (start : SourceRange) (a : TemplateParts) :
    P (TemplateParts × Bool) (templateStep expression closer start a) := by
  refine h.bind h.read fun next => ?_
  split
  · exact h.pure _
  split
  · exact h.map (h.chunk next) _
  · exact h.map (h.chunk next) _
  · exact h.map (h.interpolation he start) _
  · exact h.map (h.withNewlines false (h.directive he)) _
  · by_cases he : next.kind = .eof
    · simp only [if_pos he]
      exact h.reportLost _ _ _ (h.pure _) (by decide)
    · simp only [if_neg he]
      exact h.reportSkipPast _ _ _ _ (h.map h.recover _) (by decide)

theorem template (start : SourceRange) (closer : TokenKind) :
    P Expr (template expression start closer) := by
  refine h.bind h.peek fun t => h.bind (h.iterate (h.templateStep he closer _) _) fun a => ?_
  refine h.bind h.previousRange fun close => ?_
  refine h.bind (h.tell (specific_ofParts _ _)) fun _ => ?_
  split <;> exact h.pure _

omit he

theorem operatorStep {tighter : Parser Expr} (ht : P Expr tighter) (level : Level) (lhs : Expr) :
    P (Expr × Bool) (operatorStep tighter level lhs) := by
  refine h.bind h.peekKind fun k => ?_
  split
  · exact h.pure _
  refine h.bind h.skip fun _ => h.track_seq ht fun rhs lost => ?_
  dsimp only
  split <;> exact h.pure _

theorem operators {tighter : Parser Expr} (ht : P Expr tighter) (level : Level) :
    P Expr (operators level tighter) := by
  refine h.track_seq ht fun lhs lost => ?_
  dsimp only
  split
  · exact h.pure _
  · exact h.iterate (h.operatorStep ht level) _

theorem binary {operand : Parser Expr} (ho : P Expr operand) : P Expr (binary operand) := by
  unfold Parser.binary
  induction BinaryOp.levels with
  | nil => exact ho
  | cons level levels ih => exact h.operators ih level

include he in
theorem conditional {operand : Parser Expr} (ho : P Expr operand) :
    P Expr (conditional expression operand) := by
  refine h.bind h.peek fun start => h.track_seq (h.binary ho) fun condition lost => ?_
  dsimp only
  split
  · exact h.pure _
  refine h.bind h.peekKind fun k => ?_
  split
  · exact h.pure _
  refine h.bind h.skip fun _ => h.track_seq he fun ifTrue lost => ?_
  dsimp only
  split
  · exact h.pure _
  refine h.bind h.peek fun colon => ?_
  split
  · exact h.map (h.report _ _ _ rfl) _
  refine h.bind h.skip fun _ => h.track_seq he fun ifFalse lost => ?_
  dsimp only
  split <;> exact h.pure _

variable {g : Grammar} (hg : ∀ p, P Expr (g p))
include hg

theorem parenthesized : P Expr (parenthesized g) := by
  refine h.bind h.read fun opening => h.withNewlines false ?_
  refine h.observe_seq (hg _) fun e reported => ?_
  dsimp only
  split
  · exact h.map (h.skipPast _) _
  refine h.map (h.bind h.peek fun close => ?_) _
  split
  · exact h.bind (h.report _ _ _ rfl) fun _ => h.bind h.recover fun _ => h.skip
  · exact h.skip

theorem term : P Expr (term g) := by
  have hunary (op : UnaryOp) : P Expr (unary g op) :=
    h.bind h.read fun symbol => h.map (hg .operand) _
  refine h.bind h.peek fun start => ?_
  split
  · exact h.parenthesized hg
  · exact h.bind h.skip fun _ => h.map (h.numberValue start) _
  · refine h.bind h.read fun name => h.bind h.peekKind fun k => ?_
    split
    · exact h.bind h.read fun opening => h.call (hg _) name
    · exact h.pure _
  · exact h.bind h.skip fun _ => h.template (hg _) _ _
  · exact h.bind h.skip fun _ => h.template (hg _) _ _
  · exact hunary _
  · exact hunary _
  · exact h.bind h.skip fun _ => h.tuple (hg _)
  · exact h.bind h.skip fun _ => h.object (hg _)
  · exact h.invalid

theorem suffixes (e : Expr) : P Expr (suffixes g e) :=
  h.iterate (h.suffixStep (hg _) fun each => hg (.suffixes each)) e

theorem operand : P Expr (operand g) := h.bind (h.term hg) (h.suffixes hg)

theorem production (p : Production) : P Expr (production g p) := by
  cases p with
  | expression => exact h.conditional (hg _) (h.operand hg)
  | operand => exact h.operand hg
  | suffixes e => exact h.suffixes hg e

end

theorem grammar (depth : Nat) (p : Production) : P Expr (grammar depth p) := by
  induction depth generalizing p with
  | zero =>
    cases p with
    | suffixes e => exact h.bind h.invalid fun _ => h.pure e
    | _ => exact h.invalid
  | succ depth ih => exact h.production ih p

theorem expression : P Expr expression := h.bounded fun depth => h.grammar depth .expression

theorem endOfLine (name : Token) {problem : TokenKind → Problem}
    (hp : ∀ k, (problem k).code = .missingNewline) : P Unit (endOfLine name problem) := by
  refine h.bind h.peek fun next => ?_
  split
  · exact h.skip
  · exact h.skip
  · exact h.reportLost _ _ _ (h.map (h.iterate h.skipItemStep []) _) (by rw [hp]; decide)

theorem attributeValue (name equals : Token) (singleLine : Bool) :
    P Attribute (attributeValue name equals singleLine) := by
  refine h.track_seq h.expression fun e lost => h.bind h.previousRange fun stop => ?_
  dsimp only
  split
  · exact h.pure _
  split
  · exact h.map h.skipItem _
  · exact h.map (h.endOfLine name fun k => by cases k <;> rfl) _

theorem headerStep (name : Token) (x : BlockHeader) :
    P (BlockHeader × Bool) (headerStep name x) := by
  refine h.bind h.peek fun t => ?_
  split
  · exact h.map h.skip _
  · refine h.bind h.skip fun _ => h.observe_seq h.quotedString fun label reported => ?_
    dsimp only
    split
    · exact h.map h.skipItem _
    · exact h.pure _
  · refine h.bind ?_ fun _ => h.map h.skipItem _
    unfold Parser.reportHeader
    split
    · exact h.report _ _ _ rfl
    · exact h.report _ _ _ rfl
    · exact h.reportFirst _ _ _ rfl

theorem closeSingleLine : P Unit closeSingleLine := by
  refine h.bind h.peek fun close => ?_
  split
  · exact h.skip
  split
  · exact h.bind (h.report _ _ _ rfl) fun _ => h.skipPast _
  · exact h.bind (h.report _ _ _ rfl) fun _ => h.skipPast _
  · exact h.bind (h.reportFirst _ _ _ rfl) fun _ => h.skipPast _

theorem singleLineBody : P (Option Body) singleLineBody := by
  refine h.bind h.read fun name => ?_
  split
  · exact h.bind (h.reportFirst _ _ _ rfl) fun _ => h.map (h.skipPast _) _
  refine h.bind h.peek fun next => ?_
  split
  · exact h.bind h.skip fun _ => h.bind (h.attributeValue _ _ _) fun _ => h.map h.closeSingleLine _
  all_goals exact h.bind (h.report _ _ _ rfl) fun _ => h.map (h.skipPast _) _

variable {nested : Parser Body} (hn : P Body nested)
include hn

theorem blockBody : P (Option Body) (blockBody nested) := by
  refine h.bind h.peekKind fun k => ?_
  split
  · exact h.map hn _
  · exact h.map hn _
  · exact h.map hn _
  · exact h.singleLineBody

theorem block (name : Token) : P Block (block nested name) := by
  refine h.bind (h.iterate (h.headerStep name) _) fun x => ?_
  split
  · exact h.pure _
  · exact h.bind (h.blockBody hn) fun _ => h.bind h.previousRange fun _ =>
      h.map (h.endOfLine name fun _ => rfl) _

omit hn in
theorem define (items : Items) (a : Attribute) : P Items (items.define a) := by
  unfold Items.define
  split
  · exact h.pure _
  · exact h.map (h.report _ _ _ rfl) _

theorem item (name : Token) (items : Items) : P Items (item nested name items) := by
  refine h.bind h.peek fun next => ?_
  split
  · exact h.bind h.skip fun _ => h.bind (h.attributeValue _ _ _) fun a => h.define items a
  · exact h.map (h.block hn name) _
  · exact h.map (h.block hn name) _
  · exact h.bind h.skipItem fun _ => h.map (h.report _ _ _ rfl) _

omit hn in
/-- What starts no item is reported, and the rest of the body is skipped. -/
theorem reportItem {q : Parser α} (start : SourceRange) (t : Token) (closer : TokenKind)
    (hq : P α q) :
    P α (Parser.reportItem start t >>= fun _ => Parser.skipPast closer >>= fun _ => q) := by
  unfold Parser.reportItem
  split
  · exact h.reportSkipPast _ _ _ _ hq (by decide)
  · exact h.reportSkipPast _ _ _ _ hq (by decide)
  · exact h.bind (h.reportFirst _ _ _ rfl) fun _ => h.bind (h.skipPast _) fun _ => hq

theorem bodyStep (closer : TokenKind) (start : SourceRange) (items : Items) :
    P (Items × Bool) (bodyStep nested closer start items) := by
  refine h.bind h.read fun next => ?_
  split
  · exact h.pure _
  split
  · exact h.pure _
  · exact h.map (h.item hn next items) _
  · exact h.reportItem _ _ _ (h.pure _)

theorem bodyWith (closer : TokenKind) : P Body (bodyWith nested closer) :=
  h.bind h.previousRange fun start => h.map (h.iterate (h.bodyStep hn closer start) _) _

omit hn

theorem bodyFor (depth : Nat) (closer : TokenKind) : P Body (bodyFor depth closer) := by
  induction depth generalizing closer with
  | zero => exact h.map h.invalid _
  | succ depth ih => exact h.bodyWith (ih _) closer

theorem body (closer : TokenKind) : P Body (body closer) :=
  h.bounded fun depth => h.bodyFor depth closer

/-- Characters after a whole expression are reported without a recovery, for nothing follows. -/
theorem wholeExpression
    (hlast : ∀ p r x, P Unit (Parser.reportFirst p r x)) : P Expr wholeExpression := by
  refine h.withNewlines false (h.bind h.expression fun e => h.bind h.peek fun next => ?_)
  split
  · exact h.map (hlast _ _ _) _
  · exact h.pure _

theorem wholeTemplate : P Expr wholeTemplate := h.bind h.peek fun _ => h.template h.expression _ _

end Compositional

end Parser

end HclSyntax
