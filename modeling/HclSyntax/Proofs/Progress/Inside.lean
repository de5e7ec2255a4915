import HclSyntax.Proofs.Progress.Steps

namespace HclSyntax

namespace Parser

variable {α β σ : Type} {S : Cursor → Prop} {s : ParseState}

/-- Two parsers that do the same from `s` on. -/
def SameAt (s : ParseState) (p p' : Parser α) : Prop := p s = p' s

/-- Two parsers that do the same at the places `S`. -/
def SameOn (S : Cursor → Prop) (p p' : Parser α) : Prop := ∀ s, S s.cursor → SameAt s p p'

theorem SameOn.refl (p : Parser α) : SameOn S p p := fun _ _ => rfl

theorem SameAt.map {p p' : Parser α} (h : SameAt s p p') (f : α → β) :
    SameAt s (p >>= fun a => pure (f a)) (p' >>= fun a => pure (f a)) := by
  change (⟨f (p s).value, (p s).diagnostics ++ [], (p s).state⟩ : Parsed β) = _
  rw [h]
  rfl

/-- Places that are not left as long as the modes stay what they are. -/
structure Lasting (S : Cursor → Prop) : Prop where
  reaches {c c' : Cursor} (h : S c) (hr : c.Reaches c') : S c'

/-- Places that are never left once they are reached. -/
structure Onward (S : Cursor → Prop) : Prop extends Lasting S where
  enter {c : Cursor} (h : S c) (newlines : Bool) : S (c.enter newlines)

namespace Lasting

variable (hS : Lasting S)
include hS

theorem bind {p p' : Parser α} {f f' : α → Parser β} (hp : Framed p) (h : SameOn S p p')
    (hf : ∀ a, SameOn S (f a) (f' a)) : SameOn S (p >>= f) (p' >>= f') := by
  intro s hs
  have he : p s = p' s := h s hs
  have hnext : f (p s).value (p s).state = f' (p s).value (p s).state :=
    hf _ _ (hS.reaches hs (hp s))
  rw [SameAt, bind_congr_run hnext]
  change (⟨(f' (p s).value (p s).state).value, _, _⟩ : Parsed β) =
    ⟨(f' (p' s).value (p' s).state).value, _, _⟩
  rw [he]

/-- Both begin with the same parser. -/
theorem after {p : Parser α} {f f' : α → Parser β} (hp : Framed p)
    (hf : ∀ a, SameOn S (f a) (f' a)) : SameOn S (p >>= f) (p >>= f') :=
  hS.bind hp (.refl p) hf

theorem map {p p' : Parser α} (hp : Framed p) (h : SameOn S p p') (f : α → β) :
    SameOn S (p >>= fun a => pure (f a)) (p' >>= fun a => pure (f a)) :=
  hS.bind hp h fun _ => .refl _

omit hS in
theorem observe {p p' : Parser α} (h : SameOn S p p') :
    SameOn S (Parser.observe p) (Parser.observe p') := by
  intro s hs
  have he : p s = p' s := h s hs
  rw [SameAt, Parser.observe, Parser.observe, he]

theorem track {p p' : Parser α} (hp : Framed p) (h : SameOn S p p') :
    SameOn S (Parser.track p) (Parser.track p') :=
  hS.bind (framed.observe hp) (observe h) fun _ => .refl _

theorem track_seq {p p' : Parser α} {f f' : α × Bool → Parser β} (hp : Framed p)
    (h : SameOn S p p') (hf : ∀ a lost, SameOn S (f (a, lost)) (f' (a, lost))) :
    SameOn S (Parser.track p >>= f) (Parser.track p' >>= f') :=
  hS.bind (framed.track hp) (hS.track hp h) fun r => hf r.1 r.2

theorem iterate {step step' : σ → Parser (σ × Bool)} (hp : ∀ a, Framed (step a))
    (h : ∀ a, SameOn S (step a) (step' a)) (a : σ) :
    SameOn S (Parser.iterate step a) (Parser.iterate step' a) := by
  have hn (n : Nat) (a : σ) : SameOn S (iterateFor step n a) (iterateFor step' n a) := by
    induction n generalizing a with
    | zero => exact .refl _
    | succ n ih =>
      rw [iterateFor_succ, iterateFor_succ]
      refine hS.bind (hp a) (h a) fun r => ?_
      split
      · exact ih _
      · exact .refl _
  exact fun s hs => hn _ a s hs

end Lasting

namespace Onward

variable (hS : Onward S)
include hS

theorem withNewlines {p p' : Parser α} (newlines : Bool) (h : SameOn S p p') :
    SameOn S (Parser.withNewlines newlines p) (Parser.withNewlines newlines p') := by
  intro s hs
  have he : p { s with cursor := s.cursor.enter newlines } = p' _ := h _ (hS.enter hs newlines)
  rw [SameAt, Parser.withNewlines, Parser.withNewlines, he]

section
variable {e e' : Parser Expr} (hp : Framed e) (he : SameOn S e e') {opening : Token}
include hp he

theorem resultPair : SameOn S (resultPair e) (resultPair e') := by
  refine hS.bind hp he fun first => hS.after framed.peekKind fun k => ?_
  split
  · exact hS.after framed.skip fun _ => hS.map hp he _
  · exact .refl _

theorem filter : SameOn S (filter e) (filter e') := by
  refine hS.after (framed.atKeyword _) fun b => ?_
  split
  · exact hS.after framed.skip fun _ => hS.map hp he _
  · exact .refl _

theorem comprehensionResult (keyVar : Option String) (valueVar : String) (collection : Expr) :
    SameOn S (comprehensionResult e opening keyVar valueVar collection)
      (comprehensionResult e' opening keyVar valueVar collection) := by
  refine hS.track_seq (framed.resultPair hp) (hS.resultPair hp he) fun r lost => ?_
  obtain ⟨key, value⟩ := r
  dsimp only
  split
  · exact .refl _
  refine hS.after framed.groupingEllipsis fun ellipsis => ?_
  exact hS.track_seq (framed.filter hp) (hS.filter hp he) fun _ _ => .refl _

theorem comprehension : SameOn S (comprehension e opening) (comprehension e' opening) := by
  refine hS.withNewlines false (hS.after framed.skip fun _ => hS.after framed.binders fun names => ?_)
  split
  · exact .refl _
  refine hS.track_seq hp he fun collection lost => ?_
  dsimp only
  split
  · exact .refl _
  refine hS.after framed.peekKind fun k => ?_
  split
  · exact .refl _
  · exact hS.after framed.skip fun _ => hS.comprehensionResult hp he _ _ _

theorem tupleStep (items : List Expr) :
    SameOn S (tupleStep e opening items) (tupleStep e' opening items) := by
  refine hS.after framed.peekKind fun k => ?_
  split
  · exact .refl _
  · exact hS.track_seq hp he fun _ _ => .refl _

theorem tuple : SameOn S (tuple e opening) (tuple e' opening) := by
  refine hS.withNewlines false (hS.after (framed.atKeyword _) fun b => ?_)
  split
  · exact hS.comprehension hp he
  · exact hS.bind (framed.iterate (framed.tupleStep hp) _)
      (hS.iterate (framed.tupleStep hp) (hS.tupleStep hp he) _) fun _ => .refl _

theorem objectItem (items : List (Expr × Expr)) :
    SameOn S (objectItem e opening items) (objectItem e' opening items) := by
  refine hS.after framed.peek fun start => hS.track_seq hp he fun key lost => ?_
  dsimp only
  split
  · exact .refl _
  refine hS.after framed.peek fun next => ?_
  split
  · exact .refl _
  exact hS.after framed.skip fun _ => hS.track_seq hp he fun _ _ => .refl _

theorem objectStep (items : List (Expr × Expr)) :
    SameOn S (objectStep e opening items) (objectStep e' opening items) := by
  refine hS.after framed.peekKind fun k => ?_
  split
  · exact .refl _
  · exact .refl _
  · exact hS.objectItem hp he items

theorem object : SameOn S (object e opening) (object e' opening) := by
  refine hS.withNewlines true (hS.after (framed.atKeyword _) fun b => ?_)
  split
  · exact hS.comprehension hp he
  · exact hS.bind (framed.iterate (framed.objectStep hp) _)
      (hS.iterate (framed.objectStep hp) (hS.objectStep hp he) _) fun _ => .refl _

theorem argumentStep (name : Token) (a : Arguments) :
    SameOn S (argumentStep e name opening a) (argumentStep e' name opening a) := by
  refine hS.after framed.peekKind fun k => ?_
  split
  · exact .refl _
  · exact hS.track_seq hp he fun _ _ => .refl _

theorem call (name : Token) : SameOn S (call e name opening) (call e' name opening) := by
  have hstep (a : Arguments) : Framed (Parser.argumentStep e name opening a) :=
    framed.argumentStep hp name a
  refine hS.bind (framed.withNewlines false (framed.iterate hstep _)) ?_ fun _ => .refl _
  exact hS.withNewlines false (hS.iterate hstep (hS.argumentStep hp he name) _)

theorem indexKey : SameOn S (indexKey e) (indexKey e') :=
  hS.withNewlines false (hS.track_seq hp he fun _ _ => .refl _)

theorem index (collection : Expr) :
    SameOn S (index e collection opening) (index e' collection opening) :=
  hS.bind (framed.indexKey hp) (hS.indexKey hp he) fun _ => .refl _

omit hp he in
theorem fullSplat {f f' : Expr → Parser Expr} (hp : ∀ e, Framed (f e))
    (hf : ∀ e, SameOn S (f e) (f' e)) (source : Expr) :
    SameOn S (fullSplat f source opening) (fullSplat f' source opening) := by
  refine hS.after framed.read fun close => hS.after (fun _ => .refl _) fun b => ?_
  split
  · refine hS.after (framed.report _ _ _ rfl) fun _ => hS.after (framed.skipPast _) fun _ => ?_
    exact hS.after framed.previousRange fun _ => hS.map (hp _) (hf _) _
  · exact hS.after framed.previousRange fun _ => hS.map (hp _) (hf _) _

theorem loopCollection (key : Option String) (value : String) :
    SameOn S (loopCollection e key value) (loopCollection e' key value) := by
  refine hS.after (framed.atKeyword _) fun b => ?_
  split
  · exact hS.after framed.skip fun _ => hS.map hp he _
  · exact .refl _

theorem loopHeader : SameOn S (loopHeader e) (loopHeader e') := by
  refine hS.after framed.read fun first => ?_
  split
  · exact .refl _
  refine hS.after framed.peekKind fun k => ?_
  split
  · exact hS.loopCollection hp he _ _
  refine hS.after framed.skip fun _ => hS.after framed.read fun second => ?_
  split
  · exact .refl _
  · exact hS.loopCollection hp he _ _

theorem directiveContent (keyword : Token) :
    SameOn S (directiveContent e opening keyword) (directiveContent e' opening keyword) := by
  unfold Parser.directiveContent
  split
  · exact hS.map hp he _
  · exact .refl _
  · exact .refl _
  · exact hS.loopHeader hp he
  · exact .refl _
  · exact .refl _

theorem directive : SameOn S (directive e opening) (directive e' opening) := by
  refine hS.after framed.peek fun keyword => ?_
  split
  · exact .refl _
  refine hS.after framed.skip fun _ => ?_
  exact hS.bind (framed.directiveContent hp keyword) (hS.directiveContent hp he keyword)
    fun _ => .refl _

theorem interpolation (start : SourceRange) :
    SameOn S (interpolation e start opening) (interpolation e' start opening) := by
  refine hS.bind (framed.withNewlines false ?_) (hS.withNewlines false ?_) fun _ => .refl _
  · exact framed.bind hp fun _ => framed.map (framed.closeSequence _ _ rfl) _
  · exact hS.bind hp he fun _ => .refl _

theorem templateStep (closer : TokenKind) (start : SourceRange) (a : TemplateParts) :
    SameOn S (templateStep e closer start a) (templateStep e' closer start a) := by
  refine hS.after framed.read fun next => ?_
  split
  · exact .refl _
  split
  · exact .refl _
  · exact .refl _
  · exact hS.bind (framed.interpolation hp start) (hS.interpolation hp he start) fun _ => .refl _
  · exact hS.bind (framed.withNewlines false (framed.directive hp))
      (hS.withNewlines false (hS.directive hp he)) fun _ => .refl _
  · exact .refl _

theorem template (start : SourceRange) (closer : TokenKind) :
    SameOn S (template e start closer) (template e' start closer) := by
  refine hS.after framed.peek fun t => ?_
  exact hS.bind (framed.iterate (framed.templateStep hp closer _) _)
    (hS.iterate (framed.templateStep hp closer _) (hS.templateStep hp he closer _) _)
    fun _ => .refl _

end

section
variable {b b' : Parser Body} (hp : Framed b) (hb : SameOn S b b')
include hp hb

theorem blockBody : SameOn S (blockBody b) (blockBody b') := by
  refine hS.after framed.peekKind fun k => ?_
  split
  · exact hS.map hp hb _
  · exact hS.map hp hb _
  · exact hS.map hp hb _
  · exact .refl _

theorem block (name : Token) : SameOn S (block b name) (block b' name) := by
  refine hS.after (framed.iterate (framed.headerStep name) _) fun x => ?_
  split
  · exact .refl _
  · exact hS.bind (framed.blockBody hp) (hS.blockBody hp hb) fun _ => .refl _

theorem item (name : Token) (items : Items) :
    SameOn S (item b name items) (item b' name items) := by
  refine hS.after framed.peek fun next => ?_
  split
  · exact .refl _
  · exact hS.map (framed.block hp name) (hS.block hp hb name) _
  · exact hS.map (framed.block hp name) (hS.block hp hb name) _
  · exact .refl _

end

end Onward

end Parser

namespace Cursor

variable {c c' : Cursor}

/-- The places from `c` on. -/
def Onwards (c c' : Cursor) : Prop := c'.eof.kind = .eof ∧ c'.rest <:+ c.rest

/-- The places after a token that begins at `c` or later and is not the end of the file. -/
def Beyond (c c' : Cursor) : Prop := c'.eof.kind = .eof ∧ c.Precedes c'

theorem onward_onwards (c : Cursor) : Parser.Onward c.Onwards where
  reaches h hr := ⟨hr.eof ▸ h.1, hr.suffix.trans h.2⟩
  enter h _ := h

theorem onward_beyond (c : Cursor) : Parser.Onward c.Beyond where
  reaches h hr := ⟨hr.eof ▸ h.1, h.2.trans_suffix hr.suffix⟩
  enter h _ := h

theorem Onwards.advance (h : c.Onwards c') (hk : c'.peek.kind ≠ .eof) : c.Beyond c'.advance := by
  obtain ⟨ts, hr, t, ht, hkt⟩ := precedes_advance h.1 hk
  obtain ⟨ts', hr'⟩ := h.2
  refine ⟨c'.reaches_advance.eof ▸ h.1, ts' ++ ts, ?_, t, List.mem_append_right _ ht, hkt⟩
  rw [← hr', hr, List.append_assoc]

end Cursor

namespace Parser

section
variable {β : Type} {c : Cursor} {s : ParseState}

theorem sameAt_peek_bind {f f' : Token → Parser β} :
    SameAt s (peek >>= f) (peek >>= f') ↔ SameAt s (f s.cursor.peek) (f' s.cursor.peek) := Iff.rfl

theorem sameAt_peekKind_bind {f f' : TokenKind → Parser β} :
    SameAt s (peekKind >>= f) (peekKind >>= f') ↔
      SameAt s (f s.cursor.peek.kind) (f' s.cursor.peek.kind) := Iff.rfl

theorem SameOn.read_at {f f' : Token → Parser β} (hf : ∀ t, SameOn c.Beyond (f t) (f' t))
    (hs : c.Onwards s.cursor) (hk : s.cursor.peek.kind ≠ .eof) :
    SameAt s (read >>= f) (read >>= f') :=
  hf _ { s with cursor := s.cursor.advance } (hs.advance hk)

theorem SameOn.skip_at {f f' : Unit → Parser β} (hf : SameOn c.Beyond (f ()) (f' ()))
    (hs : c.Onwards s.cursor) (hk : s.cursor.peek.kind ≠ .eof) :
    SameAt s (skip >>= f) (skip >>= f') :=
  hf { s with cursor := s.cursor.advance } (hs.advance hk)

variable {g g' : Grammar} (hp : ∀ q, Framed (g q)) (hg : ∀ q, SameOn c.Beyond (g q) (g' q))
include hp hg

theorem same_parenthesized (hs : c.Onwards s.cursor) (hk : s.cursor.peek.kind ≠ .eof) :
    SameAt s (parenthesized g) (parenthesized g') := by
  have hS := c.onward_beyond
  refine SameOn.read_at (fun opening => ?_) hs hk
  exact hS.withNewlines false (hS.bind (framed.observe (hp _)) (Lasting.observe (hg _))
    fun _ => .refl _)

theorem same_nameOrCall (hs : c.Onwards s.cursor) (hk : s.cursor.peek.kind ≠ .eof) :
    SameAt s (nameOrCall g) (nameOrCall g') := by
  have hS := c.onward_beyond
  refine SameOn.read_at (fun name => hS.after framed.peekKind fun k => ?_) hs hk
  split
  · exact hS.after framed.read fun opening => hS.call (hp _) (hg _) name
  · exact .refl _

theorem same_unary (op : UnaryOp) (hs : c.Onwards s.cursor) (hk : s.cursor.peek.kind ≠ .eof) :
    SameAt s (unary g op) (unary g' op) :=
  SameOn.read_at (fun _ => c.onward_beyond.map (hp _) (hg _) _) hs hk

theorem same_term : SameOn c.Onwards (term g) (term g') := by
  have hS := c.onward_beyond
  intro s hs
  unfold term
  rw [sameAt_peek_bind]
  split
  · rename_i hk
    exact same_parenthesized hp hg hs (by simp [hk])
  · rfl
  · rename_i hk
    exact same_nameOrCall hp hg hs (by simp [hk])
  · rename_i hk
    exact SameOn.skip_at (hS.template (hp _) (hg _) _ _) hs (by simp [hk])
  · rename_i hk
    exact SameOn.skip_at (hS.template (hp _) (hg _) _ _) hs (by simp [hk])
  · rename_i hk
    exact same_unary hp hg _ hs (by simp [hk])
  · rename_i hk
    exact same_unary hp hg _ hs (by simp [hk])
  · rename_i hk
    exact SameOn.skip_at (hS.tuple (hp _) (hg _)) hs (by simp [hk])
  · rename_i hk
    exact SameOn.skip_at (hS.object (hp _) (hg _)) hs (by simp [hk])
  · rfl

theorem same_bracketSuffix (e : Expr) (hs : c.Onwards s.cursor)
    (hk : s.cursor.peek.kind ≠ .eof) :
    SameAt s (bracketSuffix (g .expression) (fun each => g (.suffixes each)) e)
      (bracketSuffix (g' .expression) (fun each => g' (.suffixes each)) e) := by
  have hS := c.onward_beyond
  refine SameOn.read_at (fun opening => hS.after framed.peekKind fun k => ?_) hs hk
  split
  · exact hS.after framed.skip fun _ => hS.fullSplat (fun _ => hp _) (fun _ => hg _) e
  · exact hS.index (hp _) (hg _) e

theorem same_suffixStep (e : Expr) :
    SameOn c.Onwards (suffixStep (g .expression) (fun each => g (.suffixes each)) e)
      (suffixStep (g' .expression) (fun each => g' (.suffixes each)) e) := by
  intro s hs
  unfold suffixStep
  rw [sameAt_peekKind_bind]
  split
  · rfl
  · rename_i hk
    exact (same_bracketSuffix hp hg e hs (by simp [hk])).map _
  · rfl

theorem same_suffixes (e : Expr) : SameOn c.Onwards (suffixes g e) (suffixes g' e) :=
  c.onward_onwards.iterate (framed.suffixStep (hp _) fun _ => hp _) (same_suffixStep hp hg) e

theorem same_operand : SameOn c.Onwards (operand g) (operand g') :=
  c.onward_onwards.bind (framed.term hp) (same_term hp hg) fun e => same_suffixes hp hg e

omit hp hg in
theorem same_binary {p p' : Parser Expr} (hp : Framed p) (h : SameOn c.Onwards p p') :
    SameOn c.Onwards (binary p) (binary p') := by
  have hS := c.onward_onwards
  suffices hf : Framed (binary p) ∧ SameOn c.Onwards (binary p) (binary p') from hf.2
  unfold binary
  induction BinaryOp.levels with
  | nil => exact ⟨hp, h⟩
  | cons level levels ih =>
    have hstep := framed.operatorStep ih.1 level
    refine ⟨framed.operators ih.1 level, hS.track_seq ih.1 ih.2 fun lhs lost => ?_⟩
    dsimp only
    split
    · exact .refl _
    refine hS.iterate hstep (fun lhs => hS.after framed.peekKind fun k => ?_) lhs
    split
    · exact .refl _
    · exact hS.after framed.skip fun _ => hS.track_seq ih.1 ih.2 fun _ _ => .refl _

theorem same_conditional :
    SameOn c.Onwards (conditional (g .expression) (operand g))
      (conditional (g' .expression) (operand g')) := by
  have hS := c.onward_onwards
  have hB := c.onward_beyond
  have hf := framed.operand hp
  refine hS.after framed.peek fun start => ?_
  refine hS.track_seq (framed.binary hf) (same_binary hf (same_operand hp hg)) fun e lost => ?_
  dsimp only
  split
  · exact .refl _
  intro s hs
  rw [sameAt_peekKind_bind]
  split
  · rfl
  rename_i hk
  have hk : s.cursor.peek.kind = .question := Decidable.of_not_not hk
  refine SameOn.skip_at (hB.track_seq (hp _) (hg _) fun ifTrue lost => ?_) hs (by simp [hk])
  dsimp only
  split
  · exact .refl _
  refine hB.after framed.peek fun colon => ?_
  split
  · exact .refl _
  · exact hB.after framed.skip fun _ => hB.track_seq (hp _) (hg _) fun _ _ => .refl _

theorem same_production (p : Production) : SameOn c.Onwards (production g p) (production g' p) := by
  cases p with
  | expression => exact same_conditional hp hg
  | operand => exact same_operand hp hg
  | suffixes e => exact same_suffixes hp hg e

end

theorem same_bodyWith {c : Cursor} {b b' : Parser Body} (hp : Framed b)
    (hb : SameOn c.Beyond b b') (closer : TokenKind) :
    SameOn c.Onwards (bodyWith b closer) (bodyWith b' closer) := by
  have hS := c.onward_onwards
  refine hS.after framed.previousRange fun start => ?_
  refine hS.map (framed.iterate (framed.bodyStep hp closer start) _)
    (hS.iterate (framed.bodyStep hp closer start) (fun items s hs => ?_) _) _
  change SameAt { s with cursor := s.cursor.advance } (if _ then _ else _) (if _ then _ else _)
  split
  · rfl
  split
  · rfl
  · rename_i hk
    have hk : s.cursor.peek.kind = .identifier := hk
    exact c.onward_beyond.map (framed.item hp _ items) (c.onward_beyond.item hp hb _ items) _
      { s with cursor := s.cursor.advance } (hs.advance (by simp [hk]))
  · rfl

end Parser

end HclSyntax
