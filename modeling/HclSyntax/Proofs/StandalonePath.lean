import HclSyntax.Proofs.Completeness
import HclSyntax.Proofs.Print.Derives
import HclSyntax.Proofs.Unseen

namespace HclSyntax

/-- The tokens that are seen where newlines do not count. -/
def visible (ts : List Token) : List Token := ts.filter fun t => !t.hidden false

/-- The kinds of the tokens that are seen before the end of the file. -/
def TokenList.visible (l : TokenList) : List Token :=
  (HclSyntax.visible l.toList).takeWhile (·.kind != .eof)

@[simp]
theorem visible_append (ts ts' : List Token) : visible (ts ++ ts') = visible ts ++ visible ts' :=
  List.filter_append _ _

theorem Sees.visible {t : Token} {ts : List Token} (h : Sees false t ts) : visible ts = [t] := by
  obtain ⟨hs, rfl, hh, ht⟩ := h
  have hnil : HclSyntax.visible hs = [] := List.filter_eq_nil_iff.mpr fun x hx => by simp [hh x hx]
  rw [visible_append, hnil]
  simp [HclSyntax.visible, ht]

namespace Cursor

variable {c c' c'' : Cursor} {nl : Bool} {ts ts' : List Token}

/-- The tokens `ts` are passed from `c` to `c'`, none being left out. -/
structure Walks (c : Cursor) (ts : List Token) (c' : Cursor) : Prop extends c.Passes ts c' where
  past : c' = c.past ts

theorem Walks.refl (c : Cursor) : c.Walks [] c := ⟨.refl c, rfl⟩

theorem Walks.trans (h : c.Walks ts c') (h' : c'.Walks ts' c'') : c.Walks (ts ++ ts') c'' :=
  ⟨h.toPasses.trans h'.toPasses, by rw [h'.past, h.past, past_past]⟩

theorem Walks.faces (h : c.Walks ts c') (hc : c.InMode nl) : c.Faces nl ts :=
  ⟨hc, c'.rest, h.rest.symm⟩

theorem InMode.walks (hc : c.InMode nl) (hk : c.peek.kind ≠ .eof) :
    ∃ ts, c.Walks ts c.advance ∧ Sees nl c.peek ts := by
  obtain ⟨ts, hp, hs⟩ := hc.sees hk
  have hf : c.Faces nl ts := ⟨hc, c.advance.rest, hp.rest.symm⟩
  exact ⟨ts, ⟨hp, (hf.sees hs).2⟩, hs⟩

theorem Walks.remaining_lt (h : c.Walks ts c') (hlen : 0 < ts.length) :
    c'.remaining < c.remaining := by
  rw [remaining, remaining, h.rest, List.length_append]
  omega

theorem Walks.previousRange {t : Token} (h : c.Walks ts c') (hs : Sees nl t ts) :
    c'.previousRange = t.range := by
  obtain ⟨hs, rfl, -⟩ := hs
  rw [h.past]
  simp [Cursor.past, Cursor.previousRange]

end Cursor

namespace Parser

variable {c c' : Cursor} {d : Nat}

/-- The chunks of a string in quotes are its text, piece by piece. -/
structure Chunks (texts : List String) (text : String) (ts : List Token) : Prop where
  parts : Derives (.parts false (texts.map .text)) ts
  text : text = texts.foldl (· ++ ·) ""
  kinds : (visible ts).map Token.kind = List.replicate texts.length .quotedChunk

theorem Chunks.chunk {texts : List String} {text more : String} {t : Token} {ts ts' : List Token}
    (h : Chunks texts text ts) (hk : t.kind = .quotedChunk) (hs : Sees false t ts')
    (hd : StringChunk.decode t = (more, [])) :
    Chunks (texts ++ [more]) (text ++ more) (ts ++ ts') := by
  refine ⟨?_, by simp [h.text], ?_⟩
  · rw [List.map_append]
    exact .chunk h.parts (.inl hk) hs hd
  · rw [visible_append, List.map_append, h.kinds, hs.visible, List.length_append,
      List.replicate_add, List.map_singleton, hk]
    rfl

theorem walks_quotedString (hc : c.InMode false) (opening : Token) :
    (quotedString opening).Yields c fun r c' => ∃ texts ts ts', c.Walks (ts ++ ts') c' ∧
      Chunks texts r.1 ts ∧ Mark false .closeQuote ts' := by
  have h : (iterate (quotedStep opening) ⟨"", opening.range⟩).Yields c fun q c' =>
      ∃ texts ts ts', c.Walks (ts ++ ts') c' ∧ Chunks texts q.text ts ∧
        Mark false .closeQuote ts' := by
    refine Yields.iterate (I := fun q c' => ∃ texts ts, c.Walks ts c' ∧ Chunks texts q.text ts) ?_
      ⟨[], [], .refl c, .noPart, rfl, rfl⟩
    rintro q c₁ ⟨texts, ts, hw, hd⟩
    have hc₁ := hw.inMode hc
    unfold quotedStep
    simp only [yields_read_bind]
    split
    · rename_i hk
      obtain ⟨ts', hw', hs⟩ := hc₁.walks (by simp [hk])
      simp only [yields_pure, Bool.false_eq_true, if_false]
      exact ⟨texts, ts, ts', hw.trans hw', hd, _, hk, hs⟩
    · rename_i hk
      obtain ⟨ts', hw', hs⟩ := hc₁.walks (by simp [hk])
      refine (yields_chunk _).seq ?_
      rintro text c' ⟨hdecode, hc'⟩
      subst hc'
      simp only [yields_pure, if_true]
      exact ⟨_, _, hw.trans hw', hd.chunk hk hs hdecode⟩
    all_goals exact yields_report_bind _ _ _ _ _ _
  unfold quotedString
  exact h.seq fun q c' h => by rwa [yields_pure]

/-- The kinds with which a key of more than one chunk begins. -/
def longKey : List TokenKind := [.openQuote, .quotedChunk, .quotedChunk]

/-- A key of at most one chunk is an expression for the same constant. -/
theorem walks_constantKey (hc : c.InMode false) (root : Token) :
    (constantKey root).Yields c fun v c' => ∃ k ts, v = some k ∧ c.Walks ts c' ∧
      (¬longKey <+: (visible ts).map Token.kind →
        Derives (.expression false k.keyTree) ts) := by
  unfold constantKey
  simp only [yields_peek_bind]
  split
  · rename_i hk
    obtain ⟨ts, hw, hs⟩ := hc.walks (by simp [hk])
    simp only [yields_skip_bind]
    refine (yields_numberValue _).seq ?_
    rintro v c' ⟨⟨n, hn, rfl⟩, rfl⟩
    rw [yields_pure]
    exact ⟨_, ts, rfl, hw, fun _ => derives_expression_of_term (.number hk hn hs)⟩
  · rename_i hk
    obtain ⟨ts, hw, hs⟩ := hc.walks (by simp [hk])
    simp only [yields_skip_bind]
    refine (walks_quotedString (hw.inMode hc) _).seq ?_
    rintro ⟨text, range⟩ c' ⟨texts, ts₁, ts₂, hw', hd, hm⟩
    rw [yields_pure]
    refine ⟨_, ts ++ (ts₁ ++ ts₂), rfl, hw.trans hw', fun hshort => ?_⟩
    have hclose : Mark false c.peek.kind.opposite ts₂ := hk ▸ hm
    rw [← List.append_assoc, show text = _ from hd.text]
    refine derives_expression_of_term ?_
    -- two chunks would be two parts, which are no constant
    rcases texts with _ | ⟨text, _ | ⟨_, texts⟩⟩
    · exact .quoted (.inl hk) hs hd.parts (.text .nil) hclose
    · rw [List.foldl_cons, List.foldl_nil, String.empty_append]
      exact .quoted (.inl hk) hs hd.parts (.text .nil) hclose
    · refine absurd ?_ hshort
      rw [visible_append, visible_append, hs.visible, List.map_append, List.map_append, hd.kinds,
        List.map_singleton, hk]
      exact ⟨_, rfl⟩
  · exact yields_report_bind _ _ _ _ _ _

/-- A key with its closing bracket. -/
theorem walks_constantIndex (hc : c.InMode false) (root opening : Token) :
    (constantIndex root opening).Yields c fun step c' => ∃ k ts ts',
      step = some (.index k (.between opening.range c'.previousRange)) ∧
      c.Walks (ts ++ ts') c' ∧ Mark false .closeBracket ts' ∧
      (¬longKey <+: (visible ts).map Token.kind →
        Derives (.expression false k.keyTree) ts) := by
  unfold constantIndex
  refine (walks_constantKey hc root).seq ?_
  rintro _ c₁ ⟨k, ts, rfl, hw, hd⟩
  simp only [yields_read_bind]
  split
  · exact yields_report_bind _ _ _ _ _ _
  · rename_i hk
    obtain ⟨ts', hw', hs⟩ := (hw.inMode hc).walks (by simp_all)
    rw [yields_pure, ← hw'.previousRange hs]
    exact ⟨k, ts, ts', rfl, hw.trans hw', ⟨_, by simpa using hk, hs⟩, hd⟩

variable {expression : Parser Expr} {suffixes : Expr → Parser Expr} {x : Expr}

theorem suffixStep_attr (hk : c.peek.kind = .dot) (hn : c.advance.peek.kind = .identifier) :
    (suffixStep expression suffixes x).Reads c (x.step (.attr c.advance.peek.text
      (.between c.peek.range c.advance.peek.range)), true) c.advance.advance := by
  unfold suffixStep dotSuffix
  simp only [reads_peekKind_bind, hk]
  refine Reads.bind ?_ (reads_pure.mpr ⟨rfl, rfl⟩)
  simp only [reads_read_bind, reads_peek_bind, hn, reads_skip_bind, reads_pure, and_self]

theorem suffixStep_constantIndex {k : Value} {ts ts' : List Token} (hc : c.InMode false)
    (hk : c.peek.kind = .openBracket) (hw : c.advance.Walks (ts ++ ts') c')
    (hclose : Mark false .closeBracket ts') (hd : Derives (.expression false k.keyTree) ts)
    (hlen : ts.length < d) :
    (suffixStep (grammar d .expression) suffixes x).Reads c
      (x.step (.index k (.between c.peek.range c'.previousRange)), true) c' := by
  obtain ⟨ts₀, hw₀, -⟩ := hc.walks (by simp [hk])
  obtain ⟨hstar, y, hy, htree⟩ := reads_indexKey (hd.read d hlen) hclose (hw.faces (hw₀.inMode hc))
  have hvalue : y.staticKey? = some k := by
    rw [← Expr.staticKey?_tree, htree, Value.staticKey?_keyTree]
  rw [← hw.past] at hy
  refine suffixStep_index hk hw₀.past (hw₀.past ▸ hstar) ?_
  unfold Parser.index
  rw [← hw₀.past]
  refine hy.bind ?_
  simp only [reads_previousRange_bind, hvalue, reads_pure, and_self]

/-- What follows a name, read with this much depth left. -/
def pathStep (d : Nat) : Expr → Parser (Expr × Bool) :=
  suffixStep (grammar d .expression) fun each => grammar d (.suffixes each)

/-- The path from `c₀` to `c` has these steps, and they are the suffixes that follow its root. -/
structure PathTo (c₀ : Cursor) (steps : Traversal) (c : Cursor) : Prop where
  walks : ∃ ts, c₀.Walks ts c
  leads : ∃ range, Leads (pathStep c₀.remaining)
    (.scopeTraversal [.root c₀.peek.text c₀.peek.range] c₀.peek.range) c₀.advance
    (.scopeTraversal steps range) c

variable {c₀ : Cursor} {steps : Traversal}

theorem PathTo.step (h : PathTo c₀ steps c) {ts : List Token} {s : TraversalStep}
    (hw : c.Walks ts c') (hlen : 0 < ts.length)
    (hs : ∀ x : Expr, (pathStep c₀.remaining x).Reads c (x.step s, true) c') :
    PathTo c₀ (steps ++ [s]) c' := by
  obtain ⟨⟨ts₀, hw₀⟩, range, hl⟩ := h
  exact ⟨⟨_, hw₀.trans hw⟩, _, hl.step (hs _) (hw.remaining_lt hlen)⟩

/-- No key on the way has more than one chunk. -/
def ShortKeys (c : Cursor) : Prop :=
  ∀ ts c', c.Walks ts c' → ¬.openBracket :: longKey <:+: (visible ts).map Token.kind

/-- Each step of the loop is one of the suffixes. -/
theorem pathTo_traversalStep (hc₀ : c₀.InMode false) (hkeys : ShortKeys c₀)
    (h : PathTo c₀ steps c) : (traversalStep c₀.peek steps).Yields c fun r c' =>
      if r.2 then PathTo c₀ r.1 c' else PathTo c₀ r.1 c' ∧ c'.peek.kind = .eof := by
  obtain ⟨ts₀, hw₀⟩ := h.walks
  have hc := hw₀.inMode hc₀
  unfold traversalStep
  simp only [yields_peek_bind]
  split
  · rename_i hk
    rw [yields_pure]
    exact ⟨h, hk⟩
  · rename_i hk
    obtain ⟨ts₁, hw₁, hs₁⟩ := hc.walks (by simp [hk])
    simp only [yields_skip_bind, yields_read_bind]
    split
    · rename_i hn
      obtain ⟨ts₂, hw₂, -⟩ := (hw₁.inMode hc).walks (by simp [hn])
      rw [yields_pure]
      refine h.step (hw₁.trans hw₂) ?_ fun x => suffixStep_attr hk hn
      have := hs₁.length_pos
      simp
      omega
    · exact yields_report_bind _ _ _ _ _ _
  · rename_i hk
    obtain ⟨ts₁, hw₁, hs₁⟩ := hc.walks (by simp [hk])
    simp only [yields_skip_bind]
    refine (walks_constantIndex (hw₁.inMode hc) _ _).observe_seq ?_
    rintro _ c' ⟨k, ts, ts', rfl, hw, hclose, hd⟩
    simp only [Bool.not_false, Option.toList_some, yields_pure, if_true]
    have hlen := hs₁.length_pos
    refine h.step (hw₁.trans hw) (by simp; omega) fun x => ?_
    -- the key is shorter than what the path began with, so there is depth enough to read it
    have hall := hw₀.trans (hw₁.trans hw)
    refine suffixStep_constantIndex hc hk hw hclose (hd fun hlong => hkeys _ _ hall ?_) ?_
    · obtain ⟨more, hmore⟩ := hlong
      refine ⟨(visible ts₀).map Token.kind, more ++ (visible ts').map Token.kind, ?_⟩
      simp [hs₁.visible, hk, ← hmore]
    · rw [Cursor.remaining, hall.rest]
      simp
      omega
  · exact yields_report_bind _ _ _ _ _ _

theorem pathTo_traversal (hc₀ : c₀.InMode false) (hkeys : ShortKeys c₀) :
    traversal.Yields c₀ fun steps c =>
      c₀.peek.kind = .identifier ∧ PathTo c₀ steps c ∧ c.peek.kind = .eof := by
  unfold traversal
  simp only [yields_read_bind]
  split
  · exact yields_report_bind _ _ _ _ _ _
  · rename_i hk
    have hroot : c₀.peek.kind = .identifier := by simpa using hk
    obtain ⟨ts, hw, -⟩ := hc₀.walks (by simp [hroot])
    refine (Yields.iterate (fun steps c h => pathTo_traversalStep hc₀ hkeys h) ?_).mono
      fun steps c h => ⟨hroot, h⟩
    exact ⟨⟨ts, hw⟩, _, .refl⟩

theorem Leads.begins_suffix {a b : Expr} (h : Leads (suffixStep expression suffixes) a c b c') :
    c' = c ∨ c.peek.kind = .dot ∨ c.peek.kind = .openBracket := by
  induction h with
  | refl => exact .inl rfl
  | @step b b' c' c'' _ hs _ ih =>
    refine .inr (ih.elim (fun he => ?_) id)
    subst he
    unfold suffixStep at hs
    simp only [reads_peekKind_bind] at hs
    split at hs
    · exact .inl ‹_›
    · exact .inr ‹_›
    · simp at hs

theorem reads_operators {operand : Parser Expr} {levels : List Level}
    (h : operand.Reads c x c') (hstop : StopsOperators levels c'.peek.kind) :
    (levels.foldr operators operand).Reads c x c' := by
  induction levels with
  | nil => exact h
  | cons level levels ih =>
    obtain ⟨hlevel, hlevels⟩ := List.forall_mem_cons.mp hstop.2
    refine (ih ⟨hstop.1, hlevels⟩).track_bind (Leads.iterate .refl ?_)
    unfold operatorStep
    simp only [reads_peekKind_bind, hlevel, reads_pure, and_self]

theorem nameExpr_of_variable {t : Token} (h : t.text ∉ ["true", "false", "null"]) :
    nameExpr t = .scopeTraversal [.root t.text t.range] t.range := by
  unfold nameExpr
  split <;> simp_all

theorem PathTo.reads_expression (h : PathTo c₀ steps c) (hk : c₀.peek.kind = .identifier)
    (hname : c₀.peek.text ∉ ["true", "false", "null"])
    (hend : c.peek.kind = .eof) :
    ∃ range, Parser.expression.Reads c₀ (.scopeTraversal steps range) c := by
  obtain ⟨-, range, hl⟩ := h
  refine ⟨range, ?_⟩
  have hopen : c₀.advance.peek.kind ≠ .openParen := by
    rcases hl.begins_suffix with he | hd | hb
    · simp [← he, hend]
    · simp [hd]
    · simp [hb]
  have hterm : (term (grammar c₀.remaining)).Reads c₀ (nameExpr c₀.peek) c₀.advance := by
    unfold term nameOrCall
    simp only [reads_peek_bind, hk, reads_read_bind, reads_peekKind_bind, hopen, if_false,
      reads_pure, and_self]
  have hoperand : (operand (grammar c₀.remaining)).Reads c₀ (.scopeTraversal steps range) c := by
    refine hterm.bind ?_
    rw [nameExpr_of_variable hname]
    refine hl.iterate ?_
    unfold pathStep suffixStep
    simp only [reads_peekKind_bind, hend, reads_pure, and_self]
  have hwhole : (grammar (c₀.remaining + 1) .expression).Reads c₀
      (.scopeTraversal steps range) c := by
    change (conditional _ _).Reads _ _ _
    unfold conditional
    simp only [reads_peek_bind]
    refine Reads.track_bind (reads_operators hoperand (by rw [hend]; decide)) ?_
    simp [hend]
  exact hwhole.congr rfl

end Parser

namespace TokenList

variable {tokens : TokenList} {c : Cursor} {ts : List Token}

/-- What is passed before the end of the file is seen first. -/
theorem visible_of_walks (h : (tokens.start.cursor.enter false).Walks ts c) :
    HclSyntax.visible ts <+: tokens.visible := by
  have hall : HclSyntax.visible tokens.toList = HclSyntax.visible (ts ++ c.rest) := by
    rw [← h.rest]
    refine (filter_splitLineComments (fun t ht => ?_) tokens).symm
    rcases ht with ht | ht <;> simp [Token.hidden, ht]
  have hinside : ∀ t ∈ HclSyntax.visible ts, (t.kind != .eof) = true := fun t ht => by
    simpa using h.inside t (List.mem_of_mem_filter ht)
  rw [TokenList.visible, hall, visible_append, List.takeWhile_append_of_pos hinside]
  exact List.prefix_append _ _

end TokenList

/-- A path that stands alone and is read without a report is an expression, too, and has the same
steps there, ranges included. The words for constants are no variables, and only a string of one
chunk is a constant key. -/
theorem standalone_path_is_expression (tokens : TokenList)
    (hname : ∀ t ∈ tokens.visible.head?, t.kind = .identifier →
      t.text ∉ ["true", "false", "null"])
    (hkeys : ¬[.openBracket, .openQuote, .quotedChunk, .quotedChunk] <:+:
      tokens.visible.map Token.kind)
    (h : (parseTraversal tokens).2 = []) :
    ∃ range, parseExpression tokens = (.scopeTraversal (parseTraversal tokens).1 range, []) := by
  have hc₀ : (tokens.start.cursor.enter false).InMode false := tokens.inMode_start.enter false
  have hshort : Parser.ShortKeys (tokens.start.cursor.enter false) := fun ts c hw hlong =>
    hkeys (hlong.trans ((TokenList.visible_of_walks hw).map Token.kind).isInfix)
  have hwhole : (Parser.withNewlines false Parser.traversal).Yields tokens.start.cursor
      fun steps _ => (tokens.start.cursor.enter false).peek.kind = .identifier ∧
        ∃ c, Parser.PathTo (tokens.start.cursor.enter false) steps c ∧ c.peek.kind = .eof :=
    (Parser.yields_withNewlines _ _ _ _).mpr
      ((Parser.pathTo_traversal hc₀ hshort).mono fun _ c h => ⟨h.1, c, h.2⟩)
  obtain ⟨-, hk, c, hpath, hend⟩ := hwhole.run h
  have hroot : (tokens.start.cursor.enter false).peek.text ∉ ["true", "false", "null"] := by
    obtain ⟨ts, hw, hs⟩ := hc₀.walks (by simp [hk])
    obtain ⟨more, hmore⟩ := TokenList.visible_of_walks hw
    refine hname _ ?_ hk
    rw [← hmore, hs.visible]
    rfl
  obtain ⟨range, hreads⟩ := hpath.reads_expression hk hroot hend
  exact ⟨range, parseExpression_of_reads hreads hend⟩

/-- The path `a.b["x"][0]` with a newline in it. -/
def keyedPath : TokenList where
  body := [⟨.identifier, [0x61], .point "a" ⟨1, 1, 0⟩⟩, ⟨.dot, [0x2E], .point "a" ⟨1, 2, 1⟩⟩,
    ⟨.newline, [0x0A], .point "a" ⟨1, 3, 2⟩⟩, ⟨.identifier, [0x62], .point "a" ⟨2, 1, 3⟩⟩,
    ⟨.openBracket, [0x5B], .point "a" ⟨2, 2, 4⟩⟩, ⟨.openQuote, [0x22], .point "a" ⟨2, 3, 5⟩⟩,
    ⟨.quotedChunk, [0x78], .point "a" ⟨2, 4, 6⟩⟩, ⟨.closeQuote, [0x22], .point "a" ⟨2, 5, 7⟩⟩,
    ⟨.closeBracket, [0x5D], .point "a" ⟨2, 6, 8⟩⟩, ⟨.openBracket, [0x5B], .point "a" ⟨2, 7, 9⟩⟩,
    ⟨.number, [0x30], .point "a" ⟨2, 8, 10⟩⟩, ⟨.closeBracket, [0x5D], .point "a" ⟨2, 9, 11⟩⟩]
  eof := ⟨.eof, [], .point "a" ⟨2, 10, 12⟩⟩
  eof_kind := @rfl _ TokenKind.eof

theorem keyedPath_is_expression :
    (∀ t ∈ keyedPath.visible.head?, t.kind = .identifier →
      t.text ∉ ["true", "false", "null"]) ∧
    (¬[.openBracket, .openQuote, .quotedChunk, .quotedChunk] <:+:
      keyedPath.visible.map Token.kind) ∧
    (parseTraversal keyedPath).2 = [] ∧
    ∃ range, parseExpression keyedPath =
      (.scopeTraversal (parseTraversal keyedPath).1 range, []) := by
  have hname : ∀ t ∈ keyedPath.visible.head?, t.kind = .identifier →
      t.text ∉ ["true", "false", "null"] := by decide +kernel
  have hkeys : ¬[.openBracket, .openQuote, .quotedChunk, .quotedChunk] <:+:
      keyedPath.visible.map Token.kind := by decide
  have hd : (parseTraversal keyedPath).2 = [] := by decide +kernel
  exact ⟨hname, hkeys, hd, standalone_path_is_expression keyedPath hname hkeys hd⟩

end HclSyntax
