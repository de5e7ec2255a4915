import HclSyntax.Proofs.Complete.Operator
import HclSyntax.Proofs.Sound.Collection

namespace HclSyntax.Parser

variable {expression : Parser Expr} {c : Cursor} {ts ts₁ ts₂ ts₃ : List Token}
  {es : List Tree} {e : Tree}

theorem ne_of_startsTerm {k : TokenKind} (h : startsTerm k) (k' : TokenKind)
    (h' : startsTerm k' = false := by decide) : k ≠ k' := by
  intro hk
  rw [hk, h'] at h
  exact absurd h (by decide)

/-- Expressions with a comma after each are read one by one as items of a tuple, and as
arguments. -/
def ReadsElements (expression : Parser Expr) (es : List Tree) (ts : List Token) : Prop :=
  ∀ c : Cursor, c.Faces false ts → ∃ xs : List Expr, xs.map Expr.tree = es ∧
    (∀ opening, Leads (tupleStep expression opening) [] c xs (c.past ts)) ∧
    ∀ name opening, Leads (argumentStep expression name opening) ⟨[], false⟩ c ⟨xs, false⟩
      (c.past ts)

theorem readsElements_nil : ReadsElements expression [] [] :=
  fun _ _ => ⟨[], rfl, fun _ => .refl, fun _ _ => .refl⟩

theorem ReadsElements.element (h : ReadsElements expression es ts)
    (he : ReadsTo StopsExpression expression false e ts₁) (hc : Mark false .comma ts₂) :
    ReadsElements expression (es ++ [e]) (ts ++ ts₁ ++ ts₂) := by
  intro c hf
  obtain ⟨xs, hxs, htuple, hargs⟩ := h c hf.left.left
  obtain ⟨hk, ha⟩ := hf.right.mark hc
  obtain ⟨hs, x, hx, htree⟩ := he _ hf.left.right (by rw [Cursor.past_past, hk]; decide)
  rw [Cursor.past_past] at hx ha
  have hlt : (c.past (ts ++ ts₁ ++ ts₂)).remaining < (c.past ts).remaining :=
    hf.remaining_lt_append (Nat.add_pos_right _ hc.length_pos)
  refine ⟨xs ++ [x], by simp [hxs, htree], fun opening => (htuple opening).step ?_ hlt,
    fun name opening => (hargs name opening).step ?_ hlt⟩
  · unfold tupleStep
    simp only [reads_peekKind_bind, ne_of_startsTerm hs .closeBracket, if_false]
    refine hx.track_bind ?_
    simp only [Bool.false_eq_true, if_false, reads_peek_bind, hk, reads_skip_bind, ha, reads_pure,
      and_self]
  · unfold argumentStep
    simp only [reads_peekKind_bind, ne_of_startsTerm hs .closeParen, if_false]
    refine hx.track_bind ?_
    simp only [Bool.false_eq_true, if_false, reads_read_bind, hk, ha, reads_pure, and_self]

/-- Expressions with commas between them, and the bracket that closes them. -/
def ReadsSequence (expression : Parser Expr) (es : List Tree) (ts : List Token) : Prop :=
  ∀ (c : Cursor) (ts' : List Token), c.Faces false (ts ++ ts') →
    (Mark false .closeBracket ts' → ∃ xs : List Expr, xs.map Expr.tree = es ∧ ∀ opening,
      (iterate (tupleStep expression opening) []).Reads c xs (c.past (ts ++ ts'))) ∧
    (Mark false .closeParen ts' → ∃ xs : List Expr, xs.map Expr.tree = es ∧ ∀ name opening,
      (iterate (argumentStep expression name opening) ⟨[], false⟩).Reads c ⟨xs, false⟩
        (c.past (ts ++ ts')))

theorem ReadsElements.sequence (h : ReadsElements expression es ts) :
    ReadsSequence expression es ts := by
  intro c ts' hf
  obtain ⟨xs, hxs, htuple, hargs⟩ := h c hf.left
  constructor
  · intro hc
    obtain ⟨hk, ha⟩ := hf.right.mark hc
    rw [Cursor.past_past] at ha
    refine ⟨xs, hxs, fun opening => (htuple opening).iterate ?_⟩
    unfold tupleStep
    simp only [reads_peekKind_bind, hk, if_true, reads_skip_bind, ha, reads_pure, and_self]
  · intro hc
    obtain ⟨hk, ha⟩ := hf.right.mark hc
    rw [Cursor.past_past] at ha
    refine ⟨xs, hxs, fun name opening => (hargs name opening).iterate ?_⟩
    unfold argumentStep
    simp only [reads_peekKind_bind, hk, if_true, reads_skip_bind, ha, reads_pure, and_self]

theorem ReadsElements.lastElement (h : ReadsElements expression es ts)
    (he : ReadsTo StopsExpression expression false e ts₁) :
    ReadsSequence expression (es ++ [e]) (ts ++ ts₁) := by
  intro c ts' hf
  obtain ⟨xs, hxs, htuple, hargs⟩ := h c hf.left.left
  constructor
  · intro hc
    obtain ⟨hk, ha⟩ := hf.right.mark hc
    obtain ⟨hs, x, hx, htree⟩ := he _ hf.left.right (by rw [Cursor.past_past, hk]; decide)
    rw [Cursor.past_past] at hx ha
    refine ⟨xs ++ [x], by simp [hxs, htree], fun opening => (htuple opening).iterate ?_⟩
    unfold tupleStep
    simp only [reads_peekKind_bind, ne_of_startsTerm hs .closeBracket, if_false]
    refine hx.track_bind ?_
    simp only [Bool.false_eq_true, if_false, reads_peek_bind, hk, reads_skip_bind, ha, reads_pure,
      and_self]
  · intro hc
    obtain ⟨hk, ha⟩ := hf.right.mark hc
    obtain ⟨hs, x, hx, htree⟩ := he _ hf.left.right (by rw [Cursor.past_past, hk]; decide)
    rw [Cursor.past_past] at hx ha
    refine ⟨xs ++ [x], by simp [hxs, htree], fun name opening => (hargs name opening).iterate ?_⟩
    unfold argumentStep
    simp only [reads_peekKind_bind, ne_of_startsTerm hs .closeParen, if_false]
    refine hx.track_bind ?_
    simp only [Bool.false_eq_true, if_false, reads_read_bind, hk, ha, reads_pure, and_self]

/-- The last argument of a call may be expanded. -/
theorem ReadsElements.expanded (h : ReadsElements expression es ts)
    (he : ReadsTo StopsExpression expression false e ts₁) (hx : Mark false .ellipsis ts₂)
    (hc : Mark false .closeParen ts₃) (hf : c.Faces false (ts ++ ts₁ ++ ts₂ ++ ts₃)) :
    ∃ xs : List Expr, xs.map Expr.tree = es ++ [e] ∧ ∀ name opening,
      (iterate (argumentStep expression name opening) ⟨[], false⟩).Reads c ⟨xs, true⟩
        (c.past (ts ++ ts₁ ++ ts₂ ++ ts₃)) := by
  have hf₂ := hf.left
  obtain ⟨xs, hxs, -, hargs⟩ := h c hf₂.left.left
  obtain ⟨hk, ha⟩ := hf₂.right.mark hx
  obtain ⟨hk', ha'⟩ := hf.right.mark hc
  obtain ⟨hs, x, hread, htree⟩ := he _ hf₂.left.right (by rw [Cursor.past_past, hk]; decide)
  rw [Cursor.past_past] at hread ha ha'
  refine ⟨xs ++ [x], by simp [hxs, htree], fun name opening => (hargs name opening).iterate ?_⟩
  unfold argumentStep
  simp only [reads_peekKind_bind, ne_of_startsTerm hs .closeParen, if_false]
  refine hread.track_bind ?_
  simp only [Bool.false_eq_true, if_false, reads_read_bind, hk, ha, reads_peekKind_bind, hk', if_true,
    reads_skip_bind, ha', reads_pure, and_self]

/-- The key of an item is read, a name for itself. -/
def ReadsKey (expression : Parser Expr) (e : Tree) (ts : List Token) : Prop :=
  ∀ c : Cursor, c.Faces true ts →
    (c.past ts).peek.kind = .assign ∨ (c.past ts).peek.kind = .colon →
      startsTerm c.peek.kind ∧ ∃ x, expression.Reads c x (c.past ts) ∧
        (if c.peek.kind = .openParen then x else objectKey x c.peek).tree = e

theorem stopsExpression_of_separator {k : TokenKind} (h : k = .assign ∨ k = .colon) :
    StopsExpression k := by
  rcases h with rfl | rfl <;> decide

/-- A name that is read stands at the place that it was read from. -/
theorem nameAt_of_reads {nl : Bool} {x : Expr} {c' : Cursor} (hk : KeepsNames expression)
    (hc : c.InMode nl) (h : expression.Reads c x c') : NameAt c x c' := by
  have hy := yields_iff.mp (hk nl c hc)
  rw [h] at hy
  exact (hy rfl).2

theorem readsKey_bare {text : String} (hk : KeepsNames expression)
    (he : ReadsTo StopsExpression expression true (.name text) ts) (hn : Name true text ts) :
    ReadsKey expression (.literal (.string text)) ts := by
  intro c hf hsep
  obtain ⟨hs, x, hx, htree⟩ := he c hf (stopsExpression_of_separator hsep)
  obtain ⟨hi, htext, -⟩ := hf.name hn
  refine ⟨hs, x, hx, ?_⟩
  have hname : x.tree.isName := by
    rw [htree]
    unfold Tree.name
    split <;> rfl
  obtain ⟨-, rfl, -⟩ := (nameAt_of_reads hk hf.inMode hx hname).resolve_left (by simp [hi])
  rw [if_neg (by simp [hi]), objectKey_nameExpr hi, htext]

theorem readsKey_expression (hk : KeepsNames expression)
    (he : ReadsTo StopsExpression expression true e ts)
    (hn : e.isName → ¬ Begins true (·.kind = .identifier) ts) : ReadsKey expression e ts := by
  intro c hf hsep
  obtain ⟨hs, x, hx, htree⟩ := he c hf (stopsExpression_of_separator hsep)
  refine ⟨hs, x, hx, ?_⟩
  by_cases hp : c.peek.kind = .openParen
  · rw [if_pos hp, htree]
  rw [if_neg hp]
  cases hname : x.tree.isName with
  | false => rw [objectKey_of_isName hname, htree]
  | true =>
    -- a bare name that is no string can only stand in parentheses
    obtain ⟨hi, -, -⟩ := (nameAt_of_reads hk hf.inMode hx hname).resolve_left hp
    obtain ⟨ts', hf', hsees⟩ := hf.followed (by rcases hsep with h | h <;> simp [h])
    refine absurd (hf'.begins hsees ?_ hi) (hn (htree ▸ hname))
    rcases hsep with h | h <;> simp [h]

/-- An item is read up to its separator, and the separator as it is. -/
def ReadsItem (expression : Parser Expr) (k v : Tree) (ts : List Token) : Prop :=
  ∀ (c : Cursor), c.Faces true ts → StopsExpression (c.past ts).peek.kind →
    startsTerm c.peek.kind ∧ ∃ i : Expr × Expr, (i.1.tree, i.2.tree) = (k, v) ∧
      ∀ opening items more c', (objectSeparator opening).Reads (c.past ts) more c' →
        (objectItem expression opening items).Reads c (items ++ [i], more) c'

theorem ReadsKey.item {k v : Tree} {separator : TokenKind} (hk : ReadsKey expression k ts₁)
    (hs : Mark true separator ts₂) (hsep : separator = .assign ∨ separator = .colon)
    (hv : ReadsTo StopsExpression expression true v ts₃) :
    ReadsItem expression k v (ts₁ ++ ts₂ ++ ts₃) := by
  intro c hf hstop
  obtain ⟨hkind, ha⟩ := hf.left.right.mark hs
  obtain ⟨hstart, x, hx, hkey⟩ := hk c hf.left.left (by rwa [hkind])
  obtain ⟨-, y, hy, hvalue⟩ := hv _ hf.right (by rwa [Cursor.past_past])
  rw [Cursor.past_past] at ha hy
  refine ⟨hstart, (if c.peek.kind = .openParen then x else objectKey x c.peek, y),
    by rw [hkey, hvalue], fun opening items more c' hmore => ?_⟩
  have hcond : ¬ (separator ≠ .assign ∧ separator ≠ .colon) := by
    rcases hsep with rfl | rfl <;> decide
  unfold objectItem
  simp only [reads_peek_bind]
  refine hx.track_bind ?_
  simp only [Bool.false_eq_true, if_false, reads_peek_bind, hkind, hcond, reads_skip_bind, ha]
  refine hy.track_bind ?_
  simp only [Bool.false_eq_true, if_false]
  exact hmore.bind (reads_pure.mpr ⟨rfl, rfl⟩)

/-- Items of an object are read one by one, and empty lines between them. -/
def ReadsItems (expression : Parser Expr) (xs : List (Tree × Tree)) (ts : List Token) : Prop :=
  ∀ c : Cursor, c.Faces true ts → ∃ items : List (Expr × Expr),
    items.map (fun i => (i.1.tree, i.2.tree)) = xs ∧
    ∀ opening, Leads (objectStep expression opening) [] c items (c.past ts)

variable {xs : List (Tree × Tree)} {k v : Tree}

theorem readsItems_nil : ReadsItems expression [] [] := fun _ _ => ⟨[], rfl, fun _ => .refl⟩

theorem ReadsItems.emptyLine (h : ReadsItems expression xs ts) (hn : Mark true .newline ts₁) :
    ReadsItems expression xs (ts ++ ts₁) := by
  intro c hf
  obtain ⟨items, hitems, hleads⟩ := h c hf.left
  obtain ⟨hk, ha⟩ := hf.right.mark hn
  rw [Cursor.past_past] at ha
  refine ⟨items, hitems, fun opening => (hleads opening).step ?_ (hf.remaining_lt hn.length_pos)⟩
  unfold objectStep
  simp only [reads_peekKind_bind, hk, reads_skip_bind, ha, reads_pure, and_self]

/-- Where an item begins the step reads it. -/
theorem objectStep_of_startsTerm {opening : Token} {items : List (Expr × Expr)}
    {r : List (Expr × Expr) × Bool} {c' : Cursor} (hs : startsTerm c.peek.kind)
    (h : (objectItem expression opening items).Reads c r c') :
    (objectStep expression opening items).Reads c r c' := by
  unfold objectStep
  simp only [reads_peekKind_bind]
  split
  · rename_i hk
    exact absurd hk (ne_of_startsTerm hs .newline)
  · rename_i hk
    exact absurd hk (ne_of_startsTerm hs .closeBrace)
  · exact h

theorem ReadsItems.item (h : ReadsItems expression xs ts) (hx : ReadsItem expression k v ts₁)
    {separator : TokenKind} (hsep : separator = .comma ∨ separator = .newline)
    (hc : Mark true separator ts₂) : ReadsItems expression (xs ++ [(k, v)]) (ts ++ ts₁ ++ ts₂) := by
  intro c hf
  obtain ⟨items, hitems, hleads⟩ := h c hf.left.left
  obtain ⟨hk, ha⟩ := hf.right.mark hc
  obtain ⟨hs, i, hi, hread⟩ := hx _ hf.left.right (by
    rw [Cursor.past_past, hk]
    rcases hsep with rfl | rfl <;> decide)
  rw [Cursor.past_past] at hread ha
  have hlt : (c.past (ts ++ ts₁ ++ ts₂)).remaining < (c.past ts).remaining :=
    hf.remaining_lt_append (Nat.add_pos_right _ hc.length_pos)
  refine ⟨items ++ [i], by simp [hitems, hi], fun opening => (hleads opening).step ?_ hlt⟩
  refine objectStep_of_startsTerm hs (hread opening items true _ ?_)
  unfold objectSeparator
  rcases hsep with rfl | rfl <;> simp [hk, ha]

/-- Items of an object, and the brace that closes them. -/
def ReadsFields (expression : Parser Expr) (xs : List (Tree × Tree)) (ts : List Token) : Prop :=
  ∀ (c : Cursor) (ts' : List Token), c.Faces true (ts ++ ts') → Mark true .closeBrace ts' →
    ∃ items : List (Expr × Expr), items.map (fun i => (i.1.tree, i.2.tree)) = xs ∧
      ∀ opening, (iterate (objectStep expression opening) []).Reads c items (c.past (ts ++ ts'))

theorem ReadsItems.fields (h : ReadsItems expression xs ts) : ReadsFields expression xs ts := by
  intro c ts' hf hc
  obtain ⟨items, hitems, hleads⟩ := h c hf.left
  obtain ⟨hk, ha⟩ := hf.right.mark hc
  rw [Cursor.past_past] at ha
  refine ⟨items, hitems, fun opening => (hleads opening).iterate ?_⟩
  unfold objectStep
  simp only [reads_peekKind_bind, hk, reads_skip_bind, ha, reads_pure, and_self]

theorem ReadsItems.lastItem (h : ReadsItems expression xs ts) (hx : ReadsItem expression k v ts₁) :
    ReadsFields expression (xs ++ [(k, v)]) (ts ++ ts₁) := by
  intro c ts' hf hc
  obtain ⟨items, hitems, hleads⟩ := h c hf.left.left
  obtain ⟨hk, ha⟩ := hf.right.mark hc
  obtain ⟨hs, i, hi, hread⟩ := hx _ hf.left.right (by
    rw [Cursor.past_past, hk]
    decide)
  rw [Cursor.past_past] at hread ha
  refine ⟨items ++ [i], by simp [hitems, hi], fun opening => (hleads opening).iterate ?_⟩
  refine objectStep_of_startsTerm hs (hread opening items false _ ?_)
  unfold objectSeparator
  simp only [reads_peek_bind, hk, reads_skip_bind, ha, reads_pure, and_self]

/-- The condition of a comprehension up to the bracket that closes it. -/
def ReadsFilter (expression : Parser Expr) (cond : Option Tree) (ts : List Token) : Prop :=
  ∀ c : Cursor, c.Faces false ts →
    (c.past ts).peek.kind = .closeBracket ∨ (c.past ts).peek.kind = .closeBrace →
      (c.peek.kind = .identifier ∨ c.peek.kind = .closeBracket ∨ c.peek.kind = .closeBrace) ∧
        ∃ x, (filter expression).Reads c x (c.past ts) ∧ x.map Expr.tree = cond

/-- What may follow the value of a comprehension is no more of it. -/
theorem stops_value {k : TokenKind} (h : k = .identifier ∨ k = .closeBracket ∨ k = .closeBrace) :
    StopsExpression k ∧ k ≠ .fatArrow ∧ k ≠ .ellipsis := by
  rcases h with rfl | rfl | rfl <;> decide

theorem readsFilter_none : ReadsFilter expression none [] := by
  intro c hf hk
  refine ⟨.inr hk, none, ?_, rfl⟩
  have hno : c.peek.isKeyword "if" = false := by
    rcases hk with h | h <;> simp_all [Token.isKeyword]
  unfold filter
  simp [hno]

theorem readsFilter_some (hi : Keyword false "if" ts₁)
    (he : ReadsTo StopsExpression expression false e ts₂) :
    ReadsFilter expression (some e) (ts₁ ++ ts₂) := by
  intro c hf hk
  obtain ⟨hw, ha⟩ := hf.left.keyword hi
  obtain ⟨-, x, hx, htree⟩ := he _ hf.right (by
    rw [Cursor.past_past]
    rcases hk with h | h <;> rw [h] <;> decide)
  rw [Cursor.past_past] at hx
  refine ⟨.inl (Token.kind_of_isKeyword hw), some x, ?_, by simp [htree]⟩
  unfold filter
  simp only [reads_atKeyword_bind, hw, if_true, reads_skip_bind, ha]
  exact hx.bind (reads_pure.mpr ⟨rfl, rfl⟩)

theorem reads_binders {key : Option String} {value : String} (h : Binders key value ts)
    (hf : c.Faces false ts) (opening : Token) :
    (binders opening).Reads c (some (key, value)) (c.past ts) := by
  unfold binders
  cases h with
  | value hv hin =>
    obtain ⟨hk, rfl, ha⟩ := hf.left.name hv
    obtain ⟨hw, ha'⟩ := hf.right.keyword hin
    rw [Cursor.past_past] at ha'
    have hcomma := Token.kind_of_isKeyword hw
    unfold inKeyword
    simp [hk, ha, hcomma, hw, ha']
  | keyValue hkey hc hv hin =>
    obtain ⟨hk, rfl, ha⟩ := hf.left.left.left.name hkey
    obtain ⟨hk₂, ha₂⟩ := hf.left.left.right.mark hc
    obtain ⟨hk₃, rfl, ha₃⟩ := hf.left.right.name hv
    obtain ⟨hw, ha₄⟩ := hf.right.keyword hin
    rw [Cursor.past_past] at ha₂ ha₃ ha₄
    unfold inKeyword
    simp only [reads_peekKind_bind, hk, ne_eq, not_true_eq_false, if_false, reads_read_bind, ha, hk₂,
      reads_skip_bind, ha₂, hk₃, ha₃, reads_atKeyword_bind, hw, if_true, ha₄, reads_pure, and_self]

theorem reads_closeComprehension {opening : Token} (h : c.peek.kind = opening.kind.opposite) :
    (closeComprehension opening).Reads c c.advance.previousRange c.advance := by
  unfold closeComprehension
  simp only [reads_peekKind_bind, h, if_true, reads_skip_bind]
  rfl

/-- The parts of what follows the colon of a comprehension, and its closing bracket. -/
theorem reads_comprehensionResult {o : Token} {k : Option Expr} {x : Expr} {ellipsis : Option Token}
    {y : Option Expr} {c₁ c₂ c₃ : Cursor} (hpair : (resultPair expression).Reads c (k, x) c₁)
    (he : groupingEllipsis.Reads c₁ ellipsis c₂) (hy : (filter expression).Reads c₂ y c₃)
    (hclose : c₃.peek.kind = o.kind.opposite)
    (hcheck : ∀ whole c, (checkResult o k x ellipsis whole).Reads c () c)
    (keyVar : Option String) (valueVar : String) (collection : Expr) :
    ∃ close whole, (comprehensionResult expression o keyVar valueVar collection).Reads c
      (.comprehension keyVar valueVar collection k x y ellipsis.isSome o.range close whole)
      c₃.advance := by
  refine ⟨c₃.advance.previousRange, .between o.range c₃.advance.previousRange, ?_⟩
  unfold comprehensionResult
  refine hpair.track_bind ?_
  simp only [Bool.false_eq_true, if_false]
  refine he.bind (hy.track_bind ?_)
  simp only [Bool.false_eq_true, if_false]
  exact (reads_closeComprehension hclose).bind ((hcheck _ _).bind (reads_pure.mpr ⟨rfl, rfl⟩))

theorem reads_groupingEllipsis_none (h : c.peek.kind ≠ .ellipsis) :
    groupingEllipsis.Reads c none c := by
  unfold groupingEllipsis
  simp only [reads_peekKind_bind, h, if_false, reads_pure, and_self]

/-- What follows the colon of a comprehension is read, through the closing bracket. -/
def ReadsResult (expression : Parser Expr) (opening : TokenKind) (key : Option Tree) (value : Tree)
    (cond : Option Tree) (group : Bool) (ts : List Token) : Prop :=
  ∀ c : Cursor, c.Faces false ts → ∀ o : Token, o.kind = opening → ∀ keyVar valueVar collection,
    ∃ x, (comprehensionResult expression o keyVar valueVar collection).Reads c x (c.past ts) ∧
      x.tree = .comprehension keyVar valueVar collection.tree key value cond group

variable {key value : Tree} {cond : Option Tree} {ts₄ ts₅ ts₆ : List Token}

theorem readsResult_tuple (hv : ReadsTo StopsExpression expression false value ts₁)
    (hfilter : ReadsFilter expression cond ts₂) (hc : Mark false .closeBracket ts₃) :
    ReadsResult expression .openBracket none value cond false (ts₁ ++ ts₂ ++ ts₃) := by
  intro c hf o ho keyVar valueVar collection
  obtain ⟨hk, ha⟩ := hf.right.mark hc
  obtain ⟨hk', y, hy, hcond⟩ := hfilter _ hf.left.right (by rw [Cursor.past_past]; exact .inl hk)
  rw [Cursor.past_past] at hy ha
  obtain ⟨hstop, harrow, hellipsis⟩ := stops_value hk'
  obtain ⟨-, x, hx, htree⟩ := hv _ hf.left.left hstop
  have hpair : (resultPair expression).Reads c (none, x) (c.past ts₁) := by
    unfold resultPair
    refine hx.bind ?_
    simp only [reads_peekKind_bind, harrow, if_false, reads_pure, and_self]
  obtain ⟨close, whole, hread⟩ := reads_comprehensionResult (o := o) hpair
    (reads_groupingEllipsis_none hellipsis) hy (by rw [hk, ho]; rfl)
    (fun whole c => by simp [checkResult, ho]) keyVar valueVar collection
  rw [ha] at hread
  exact ⟨_, hread, by simp [Expr.tree, htree, hcond]⟩

/-- The key and the value of a comprehension of an object. -/
theorem reads_resultPair (hk : ReadsTo StopsExpression expression false key ts₁)
    (ha : Mark false .fatArrow ts₂) (hv : ReadsTo StopsExpression expression false value ts₃)
    (hf : c.Faces false (ts₁ ++ ts₂ ++ ts₃))
    (hstop : StopsExpression (c.past (ts₁ ++ ts₂ ++ ts₃)).peek.kind) :
    ∃ k x : Expr, k.tree = key ∧ x.tree = value ∧
      (resultPair expression).Reads c (some k, x) (c.past (ts₁ ++ ts₂ ++ ts₃)) := by
  obtain ⟨hkind, hadv⟩ := hf.left.right.mark ha
  obtain ⟨-, k, hk, hkey⟩ := hk _ hf.left.left (by rw [hkind]; decide)
  obtain ⟨-, x, hx, hvalue⟩ := hv _ hf.right (by rwa [Cursor.past_past])
  rw [Cursor.past_past] at hadv hx
  refine ⟨k, x, hkey, hvalue, ?_⟩
  unfold resultPair
  refine hk.bind ?_
  simp only [reads_peekKind_bind, hkind, if_true, reads_skip_bind, hadv]
  exact hx.bind (reads_pure.mpr ⟨rfl, rfl⟩)

theorem readsResult_object (hk : ReadsTo StopsExpression expression false key ts₁)
    (harrow : Mark false .fatArrow ts₂) (hv : ReadsTo StopsExpression expression false value ts₃)
    (hfilter : ReadsFilter expression cond ts₄) (hc : Mark false .closeBrace ts₅) :
    ReadsResult expression .openBrace (some key) value cond false
      (ts₁ ++ ts₂ ++ ts₃ ++ ts₄ ++ ts₅) := by
  intro c hf o ho keyVar valueVar collection
  obtain ⟨hkind, ha⟩ := hf.right.mark hc
  obtain ⟨hk', y, hy, hcond⟩ :=
    hfilter _ hf.left.right (by rw [Cursor.past_past]; exact .inr hkind)
  rw [Cursor.past_past] at hy ha
  obtain ⟨hstop, -, hellipsis⟩ := stops_value hk'
  obtain ⟨k, x, hkey, hvalue, hpair⟩ := reads_resultPair hk harrow hv hf.left.left hstop
  obtain ⟨close, whole, hread⟩ := reads_comprehensionResult (o := o) hpair
    (reads_groupingEllipsis_none hellipsis) hy (by rw [hkind, ho]; rfl)
    (fun whole c => by simp [checkResult, ho]) keyVar valueVar collection
  rw [ha] at hread
  exact ⟨_, hread, by simp [Expr.tree, hkey, hvalue, hcond]⟩

theorem readsResult_groups (hk : ReadsTo StopsExpression expression false key ts₁)
    (harrow : Mark false .fatArrow ts₂) (hv : ReadsTo StopsExpression expression false value ts₃)
    (hg : Mark false .ellipsis ts₄) (hfilter : ReadsFilter expression cond ts₅)
    (hc : Mark false .closeBrace ts₆) : ReadsResult expression .openBrace (some key) value cond true
      (ts₁ ++ ts₂ ++ ts₃ ++ ts₄ ++ ts₅ ++ ts₆) := by
  intro c hf o ho keyVar valueVar collection
  obtain ⟨hkind, ha⟩ := hf.right.mark hc
  obtain ⟨hellipsis, hadv⟩ := hf.left.left.right.mark hg
  obtain ⟨-, y, hy, hcond⟩ :=
    hfilter _ hf.left.right (by rw [Cursor.past_past]; exact .inr hkind)
  rw [Cursor.past_past] at hy ha hadv
  obtain ⟨k, x, hkey, hvalue, hpair⟩ := reads_resultPair hk harrow hv hf.left.left.left
    (by rw [hellipsis]; decide)
  have he : groupingEllipsis.Reads (c.past (ts₁ ++ ts₂ ++ ts₃))
      (some (c.past (ts₁ ++ ts₂ ++ ts₃)).peek) (c.past (ts₁ ++ ts₂ ++ ts₃ ++ ts₄)) := by
    unfold groupingEllipsis
    simp only [reads_peekKind_bind, hellipsis, if_true, reads_read_bind, hadv, reads_pure, and_self]
  obtain ⟨close, whole, hread⟩ :=
    reads_comprehensionResult (o := o) hpair he hy (by rw [hkind, ho]; rfl)
    (fun whole c => by simp [checkResult, ho]) keyVar valueVar collection
  rw [ha] at hread
  exact ⟨_, hread, by simp [Expr.tree, hkey, hvalue, hcond]⟩

/-- A comprehension from its keyword on. Where it begins newlines may count. -/
theorem reads_comprehension {nl group : Bool} {keyVar : Option String} {valueVar : String}
    {collection : Tree} {key : Option Tree} {o : Token} (hfor : Keyword nl "for" ts₁)
    (hb : Binders keyVar valueVar ts₂)
    (hcoll : ReadsTo StopsExpression expression false collection ts₃)
    (hcolon : Mark false .colon ts₄)
    (hr : ReadsResult expression o.kind key value cond group ts₅)
    (hf : c.Faces nl (ts₁ ++ ts₂ ++ ts₃ ++ ts₄ ++ ts₅)) :
    ∃ x, (comprehension expression o).Reads c x (c.past (ts₁ ++ ts₂ ++ ts₃ ++ ts₄ ++ ts₅)) ∧
      x.tree = .comprehension keyVar valueVar collection key value cond group := by
  obtain ⟨-, ha₁⟩ := hf.left.left.left.left.keyword_enter hfor
  have hf := hf.enter false
  have hb' := reads_binders hb hf.left.left.left.right o
  obtain ⟨hk₄, ha₄⟩ := hf.left.right.mark hcolon
  obtain ⟨-, x, hx, hxt⟩ := hcoll _ hf.left.left.right (by rw [Cursor.past_past, hk₄]; decide)
  rw [Cursor.past_past] at hb' hx ha₄
  obtain ⟨y, hy, hyt⟩ := hr _ hf.right o rfl keyVar valueVar x
  rw [Cursor.past_past] at hy
  refine ⟨y, ?_, by rw [hyt, hxt]⟩
  unfold comprehension
  rw [← c.leave_past_enter false]
  refine Reads.withNewlines ?_
  simp only [reads_skip_bind, ha₁]
  refine hb'.bind ?_
  refine hx.track_bind ?_
  simp only [Bool.false_eq_true, if_false, reads_peekKind_bind, hk₄, ne_eq, not_true_eq_false,
    reads_skip_bind, ha₄]
  exact hy

end HclSyntax.Parser
