import HclSyntax.Proofs.Progress.Inside

namespace HclSyntax

namespace Parser

/-- Where `p` stops, newlines count as they did where it began, inside of all constructs that are
open. -/
def Balances {α : Type} (p : Parser α) : Prop := ∀ s, (p s).state.cursor.modes = s.cursor.modes

theorem Framed.balances {α : Type} {p : Parser α} (h : Framed p) : Balances p :=
  fun s => (h s).modes

/-- All productions, over a grammar for the expressions and a parser for the bodies inside them. -/
structure BalancedProductions (g : Grammar) (nested : Parser Body) : Prop where
  expression : Balances (g .expression)
  operand : Balances (g .operand)
  suffixes (e : Expr) : Balances (g (.suffixes e))
  operators (level : Level) : Balances (operators level (g .operand))
  binary : Balances (binary (g .operand))
  term : Balances (term g)
  parenthesized : Balances (parenthesized g)
  indexKey : Balances (indexKey (g .expression))
  index (collection : Expr) (opening : Token) :
    Balances (index (g .expression) collection opening)
  attributeSplat (source : Expr) (dot star : Token) : Balances (attributeSplat source dot star)
  fullSplat (source : Expr) (opening : Token) :
    Balances (fullSplat (fun each => g (.suffixes each)) source opening)
  tuple (opening : Token) : Balances (tuple (g .expression) opening)
  object (opening : Token) : Balances (object (g .expression) opening)
  comprehension (opening : Token) : Balances (comprehension (g .expression) opening)
  call (name opening : Token) : Balances (call (g .expression) name opening)
  template (start : SourceRange) (closer : TokenKind) :
    Balances (template (g .expression) start closer)
  interpolation (start : SourceRange) (opening : Token) :
    Balances (interpolation (g .expression) start opening)
  directive (opening : Token) : Balances (directive (g .expression) opening)
  quotedString (opening : Token) : Balances (quotedString opening)
  traversal : Balances traversal
  skipPast (closer : TokenKind) : Balances (skipPast closer)
  skipItem : Balances skipItem
  value (name equals : Token) (singleLine : Bool) :
    Balances (attributeValue name equals singleLine)
  header (name : Token) (h : BlockHeader) : Balances (headerStep name h)
  singleLineBody : Balances singleLineBody
  block (name : Token) : Balances (block nested name)
  item (name : Token) (items : Items) : Balances (item nested name items)
  bodyStep (closer : TokenKind) (start : SourceRange) (items : Items) :
    Balances (bodyStep nested closer start items)
  body : Balances nested

theorem balancedProductions (depth nesting : Nat) (closer : TokenKind) :
    BalancedProductions (grammar depth) (bodyFor nesting closer) := by
  have hg := framed.grammar depth
  have hb := framed.bodyFor nesting closer
  exact {
    expression := (hg _).balances
    operand := (hg _).balances
    suffixes := fun _ => (hg _).balances
    operators := fun level => (framed.operators (hg _) level).balances
    binary := (framed.binary (hg _)).balances
    term := (framed.term hg).balances
    parenthesized := (framed.parenthesized hg).balances
    indexKey := (framed.indexKey (hg _)).balances
    index := fun collection _ => (framed.index (hg _) collection).balances
    attributeSplat := fun source dot star => (framed.attributeSplat source dot star).balances
    fullSplat := fun source _ => (framed.fullSplat (fun _ => hg _) source).balances
    tuple := fun _ => (framed.tuple (hg _)).balances
    object := fun _ => (framed.object (hg _)).balances
    comprehension := fun _ => (framed.comprehension (hg _)).balances
    call := fun name _ => (framed.call (hg _) name).balances
    template := fun start closer => (framed.template (hg _) start closer).balances
    interpolation := fun start _ => (framed.interpolation (hg _) start).balances
    directive := fun _ => (framed.directive (hg _)).balances
    quotedString := fun _ => framed.quotedString.balances
    traversal := framed.traversal.balances
    skipPast := fun closer => (framed.skipPast closer).balances
    skipItem := framed.skipItem.balances
    value := fun _ _ _ => (framed.attributeValue _ _ _).balances
    header := fun name h => (framed.headerStep name h).balances
    singleLineBody := framed.singleLineBody.balances
    block := fun name => (framed.block hb name).balances
    item := fun name items => (framed.item hb name items).balances
    bodyStep := fun closer start items => (framed.bodyStep hb closer start items).balances
    body := hb.balances }

/-- A watch that does not show where newlines count. Elsewhere it may do anything. -/
structure ModeWatch extends Watch where
  same {α : Type} (p : Parser α) (s : ParseState) (h : s.cursor.newlinesCount = true) : on p s = p s

/-- Places where newlines count. -/
def Counting (c : Cursor) : Prop := c.newlinesCount = true

theorem lasting_counting : Lasting Counting where
  reaches {c c'} h hr := by
    unfold Counting Cursor.newlinesCount at *
    rw [hr.modes]
    exact h

variable {α : Type} (w : ModeWatch)

theorem ModeWatch.same_on {p p' : Parser α} (h : SameOn Counting p p') :
    SameOn Counting p (w.on p') := fun s hs => (h s hs).trans (w.same p' s hs).symm

theorem same_skipItem : SameOn Counting skipItem (w.on skipItem) := w.same_on (.refl _)

theorem same_endOfLine (name : Token) (problem : TokenKind → Problem) :
    SameOn Counting (endOfLine name problem) (w.endOfLine name problem) := by
  refine lasting_counting.after framed.peek fun next => ?_
  generalize next.kind = k
  cases k
  case newline | eof => exact .refl _
  all_goals exact lasting_counting.after (framed_reportFirst _ _ _) fun _ => same_skipItem w

theorem same_attributeValue (name equals : Token) (singleLine : Bool) :
    SameOn Counting (attributeValue name equals singleLine)
      (w.attributeValue name equals singleLine) := by
  refine w.same_on (lasting_counting.track_seq framed.expression (.refl _) fun expr lost =>
    lasting_counting.after framed.previousRange fun stop => ?_)
  dsimp only
  split
  · exact .refl _
  · split
    · exact lasting_counting.map framed.skipItem (same_skipItem w) _
    · refine lasting_counting.map (framed.endOfLine name fun k => ?_) (same_endOfLine w _ _) _
      cases k <;> rfl

theorem same_headerStep (name : Token) (h : BlockHeader) :
    SameOn Counting (headerStep name h) (w.headerStep name h) := by
  refine lasting_counting.after framed.peek fun t => ?_
  have hreport : Framed (reportHeader name t) := by
    unfold reportHeader
    dsimp only
    split
    · exact framed.report _ _ _ rfl
    · exact framed.report _ _ _ rfl
    · exact framed_reportFirst _ _ _
  generalize t.kind = k
  cases k
  case openBrace => exact .refl _
  case openQuote =>
    refine lasting_counting.after framed.skip fun _ =>
      lasting_counting.after (framed.observe framed.quotedString) fun r => ?_
    obtain ⟨⟨label, range⟩, reported⟩ := r
    cases reported with
    | true => exact lasting_counting.map framed.skipItem (same_skipItem w) _
    | false => exact .refl _
  all_goals
    exact lasting_counting.after hreport fun _ =>
      lasting_counting.map framed.skipItem (same_skipItem w) _

theorem same_singleLineBody : SameOn Counting singleLineBody w.singleLineBody := by
  refine lasting_counting.after framed.read fun name => ?_
  split
  · exact .refl _
  refine lasting_counting.after framed.peek fun next => ?_
  generalize next.kind = k
  cases k
  case assign =>
    refine lasting_counting.after framed.skip fun _ => ?_
    exact lasting_counting.bind (framed.attributeValue _ _ _) (same_attributeValue w _ _ _)
      fun _ => .refl _
  all_goals exact .refl _

section
variable {nested nested' : Parser Body} (hf : Framed nested) (hn : SameOn Counting nested nested')
include hf hn

theorem same_watched_blockBody : SameOn Counting (blockBody nested) (w.blockBody nested') := by
  refine lasting_counting.after framed.peekKind fun k => ?_
  cases k
  case newline | eof | closeBrace => exact lasting_counting.map hf hn _
  all_goals exact same_singleLineBody w

theorem same_watched_block (name : Token) :
    SameOn Counting (block nested name) (w.block nested' name) := by
  refine w.same_on (lasting_counting.bind (framed.iterate (framed.headerStep name) _)
    (lasting_counting.iterate (framed.headerStep name) (same_headerStep w name) _) fun h => ?_)
  obtain ⟨labels, labelRanges, brace⟩ := h
  cases brace with
  | none => exact .refl _
  | some brace =>
  refine lasting_counting.bind (framed.blockBody hf) (same_watched_blockBody w hf hn) fun body => ?_
  refine lasting_counting.after framed.previousRange fun close => ?_
  exact lasting_counting.map (framed.endOfLine name fun _ => rfl) (same_endOfLine w _ _) _

theorem same_watched_item (name : Token) (items : Items) :
    SameOn Counting (item nested name items) (w.item nested' name items) := by
  refine w.same_on (lasting_counting.after framed.peek fun next => ?_)
  generalize next.kind = k
  cases k
  case assign =>
    refine lasting_counting.after framed.skip fun _ => ?_
    exact lasting_counting.bind (framed.attributeValue _ _ _) (same_attributeValue w _ _ _)
      fun _ => .refl _
  case openQuote | openBrace =>
    exact lasting_counting.map (framed.block hf name) (same_watched_block w hf hn name) _
  all_goals exact lasting_counting.bind framed.skipItem (same_skipItem w) fun _ => .refl _

theorem same_watched_bodyStep (closer : TokenKind) (start : SourceRange) (items : Items) :
    SameOn Counting (bodyStep nested closer start items)
      (w.bodyStep nested' closer start items) := by
  refine w.same_on (lasting_counting.after framed.read fun next => ?_)
  split
  · exact .refl _
  generalize next.kind = k
  cases k
  case identifier =>
    exact lasting_counting.map (framed.item hf _ _) (same_watched_item w hf hn _ _) _
  all_goals exact .refl _

theorem same_watched_bodyWith (closer : TokenKind) :
    SameOn Counting (bodyWith nested closer) (w.bodyWith nested' closer) := by
  refine w.same_on (lasting_counting.after framed.previousRange fun start => ?_)
  exact lasting_counting.map (framed.iterate (framed.bodyStep hf closer start) _)
    (lasting_counting.iterate (framed.bodyStep hf closer start)
      (same_watched_bodyStep w hf hn closer start) _) _

end

theorem same_watched_bodyFor (depth : Nat) (closer : TokenKind) :
    SameOn Counting (bodyFor depth closer) (w.bodyFor depth closer) := by
  induction depth generalizing closer with
  | zero => exact .refl _
  | succ depth ih => exact same_watched_bodyWith w (framed.bodyFor depth _) (ih _) closer

theorem same_watched_body (closer : TokenKind) :
    SameOn Counting (body closer) (w.body closer) := by
  intro s hs
  have h : bodyFor (s.cursor.remaining + 1) closer s =
      w.bodyFor (s.cursor.remaining + 1) closer s := same_watched_bodyFor w _ closer s hs
  exact h

end Parser

/-- Newline modes are balanced. Every production leaves the modes as they were, whatever is wrong in
it. So newlines count whenever items of a body are read: if all who read them, and who search for
the next one, did something else where newlines do not count, it would never show. -/
theorem newline_modes_are_balanced (depth nesting : Nat) (closer : TokenKind) :
    Parser.BalancedProductions (Parser.grammar depth) (Parser.bodyFor nesting closer) ∧
    ∀ (w : Parser.ModeWatch) (tokens : TokenList),
      (w.body closer).run tokens = parseBody tokens closer := by
  refine ⟨Parser.balancedProductions depth nesting closer, fun w tokens => ?_⟩
  have hsame : Parser.body closer _ = w.body closer _ :=
    Parser.same_watched_body w closer ⟨.ofTokens tokens.splitLineComments, false⟩ rfl
  rw [parseBody, Parser.run, Parser.run, hsame]

end HclSyntax
