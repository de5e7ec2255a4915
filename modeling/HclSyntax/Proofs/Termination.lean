import HclSyntax.Proofs.NoSilentError
import HclSyntax.Proofs.Progress.Inside

namespace HclSyntax

namespace Parser

section
variable {ι α σ : Type} {F : (ι → Parser α) → ι → Parser α}

/-- A recursion whose parsers move forward if those they call do, and call them only after a token
that is not the end of the file: what they do is settled by what is done there. -/
structure Guarded (F : (ι → Parser α) → ι → Parser α) : Prop where
  framed {r : ι → Parser α} (hr : ∀ i, Framed (r i)) (i : ι) : Framed (F r i)
  calls {r r' : ι → Parser α} (c : Cursor) (hr : ∀ i, Framed (r i))
    (h : ∀ i, SameOn c.Beyond (r i) (r' i)) (i : ι) : SameOn c.Onwards (F r i) (F r' i)

namespace Guarded

variable (hF : Guarded F) {r r' : ι → Parser α} {s : ParseState}
include hF

theorem framed_iterate (hr : ∀ i, Framed (r i)) (n : Nat) (i : ι) : Framed (F^[n] r i) := by
  induction n generalizing i with
  | zero => exact hr i
  | succ n ih =>
    rw [Function.iterate_succ_apply']
    exact hF.framed ih i

/-- Whatever is called below as many levels as there are tokens, it makes no difference. -/
theorem depth_irrelevant (hr : ∀ i, Framed (r i)) {n m : Nat} (i : ι) (hs : s.Ends)
    (hn : s.cursor.remaining < n) (hm : s.cursor.remaining < m) : F^[n] r i s = F^[m] r' i s := by
  induction n generalizing m i s with
  | zero => omega
  | succ n ih =>
    obtain ⟨m, rfl⟩ : ∃ k, m = k + 1 := ⟨m - 1, by omega⟩
    rw [Function.iterate_succ_apply', Function.iterate_succ_apply']
    refine hF.calls s.cursor (hF.framed_iterate hr n) (fun i t ht => ?_) i s ⟨hs, List.suffix_refl _⟩
    have hlt := ht.2.remaining_lt
    exact ih i ht.1 (by omega) (by omega)

end Guarded

/-- The recursion `F` has one solution among the parsers that move forward, and that is `r`. With
less than `n` tokens left, `n` levels of it are as good as any number. -/
structure Settles (F : (ι → Parser α) → ι → Parser α) (r : ι → Parser α) : Prop where
  guarded : Guarded F
  framed (i : ι) : Framed (r i)
  solves (i : ι) (s : ParseState) (hs : s.Ends) : r i s = F r i s
  unique (r' : ι → Parser α) (hr' : ∀ i, Framed (r' i))
    (h : ∀ i (s : ParseState), s.Ends → r' i s = F r' i s) (i : ι) (s : ParseState)
    (hs : s.Ends) : r' i s = r i s
  depth (base : ι → Parser α) (hb : ∀ i, Framed (base i)) (n : Nat) (i : ι) (s : ParseState)
    (hs : s.Ends) (hn : s.cursor.remaining < n) : F^[n] base i s = r i s

/-- A guarded recursion that goes as deep as there are tokens. -/
theorem Guarded.settles (hF : Guarded F) {base : ι → Parser α} (hb : ∀ i, Framed (base i)) :
    Settles F fun i s => F^[s.cursor.remaining + 1] base i s := by
  have hframed (i : ι) : Framed fun s => F^[s.cursor.remaining + 1] base i s :=
    Parser.framed.bounded fun n => hF.framed_iterate hb n i
  have hdepth (b : ι → Parser α) (h : ∀ i, Framed (b i)) (n : Nat) (i : ι) (s : ParseState)
      (hs : s.Ends) (hn : s.cursor.remaining < n) :
      F^[n] b i s = F^[s.cursor.remaining + 1] base i s :=
    hF.depth_irrelevant h i hs hn (Nat.lt_succ_self _)
  refine ⟨hF, hframed, fun i s hs => ?_, fun r' hr' h i s hs => ?_, hdepth⟩
  · rw [Function.iterate_succ_apply']
    refine hF.calls s.cursor (hF.framed_iterate hb _) (fun i t ht => ?_) i s
      ⟨hs, List.suffix_refl _⟩
    exact hF.depth_irrelevant hb i ht.1 ht.2.remaining_lt (Nat.lt_succ_self _)
  · -- a solution is as good as itself after any number of levels
    have hn (n : Nat) (i : ι) (s : ParseState) (hs : s.Ends) : F^[n] r' i s = r' i s := by
      induction n generalizing i s with
      | zero => rfl
      | succ n ih =>
        rw [Function.iterate_succ_apply', h i s hs]
        exact hF.calls s.cursor (hF.framed_iterate hr' n) (fun i t ht => ih i t ht.1) i s
          ⟨hs, List.suffix_refl _⟩
    rw [← hn (s.cursor.remaining + 1) i s hs]
    exact hdepth r' hr' _ i s hs (Nat.lt_succ_self _)

/-- Induction on what is left of the source: what a recursion does at `c` it does over parsers that
are its own at all places behind `c` and others at the rest. -/
theorem Settles.induct {r base : ι → Parser α} (h : Settles F r) (hb : ∀ i, Framed (base i))
    {P : Cursor → ι → Parser α → Prop}
    (congr : ∀ i c p p', (∀ b, p' ⟨c, b⟩ = p ⟨c, b⟩) → P c i p → P c i p')
    (start : ∀ i c, P c i (base i))
    (step : ∀ r', (∀ i, Framed (r' i)) → (∀ i s, r' i s = r i s ∨ r' i s = base i s) →
      (∀ i c, P c i (r' i)) → ∀ i c, P c i (F r' i))
    (i : ι) {c : Cursor} (hc : c.eof.kind = .eof) : P c i (r i) := by
  induction hn : c.remaining using Nat.strongRecOn generalizing i c with
  | _ n ih =>
    let r' : ι → Parser α := fun i s =>
      if s.cursor.eof.kind = .eof ∧ s.cursor.remaining < n then r i s else base i s
    have hor (i : ι) (s : ParseState) : r' i s = r i s ∨ r' i s = base i s := by
      unfold r'
      split
      · exact .inl rfl
      · exact .inr rfl
    have hframed (i : ι) : Framed (r' i) := fun s => by
      rcases hor i s with hs | hs <;> rw [hs]
      · exact h.framed i s
      · exact hb i s
    have hP (i : ι) (c : Cursor) : P c i (r' i) := by
      by_cases hcond : c.eof.kind = .eof ∧ c.remaining < n
      · exact congr i c (r i) _ (fun b => if_pos hcond) (ih _ hcond.2 i hcond.1 rfl)
      · exact congr i c (base i) _ (fun b => if_neg hcond) (start i c)
    refine congr i c _ _ (fun b => ?_) (step r' hframed hor hP i c)
    rw [h.solves i ⟨c, b⟩ hc]
    refine h.guarded.calls c h.framed (fun j s hs => ?_) i ⟨c, b⟩ ⟨hc, List.suffix_refl _⟩
    exact (if_pos ⟨hs.1, hn ▸ hs.2.remaining_lt⟩).symm

end

theorem guarded_production : Guarded production where
  framed := framed.production
  calls _ := same_production

theorem grammar_eq (n : Nat) : grammar n = production^[n] (grammar 0) := by
  induction n with
  | zero => rfl
  | succ n ih =>
    rw [Function.iterate_succ_apply', ← ih]
    rfl

/-- The grammar without a bound on how deep productions nest. -/
def unbounded : Grammar := fun p s => grammar (s.cursor.remaining + 1) p s

theorem expression_eq : expression = unbounded .expression := rfl

theorem settles_production : Settles production unbounded := by
  have h := guarded_production.settles (framed.grammar 0)
  simp only [← grammar_eq] at h
  exact h

/-- Bodies, the bodies in which are those between braces. -/
def bodies (r : TokenKind → Parser Body) (closer : TokenKind) : Parser Body :=
  bodyWith (r .closeBrace) closer

theorem guarded_bodies : Guarded bodies where
  framed hr closer := framed.bodyWith (hr _) closer
  calls _ hr h closer := same_bodyWith (hr _) (h _) closer

theorem bodyFor_eq (n : Nat) : bodyFor n = bodies^[n] (bodyFor 0) := by
  induction n with
  | zero => rfl
  | succ n ih =>
    rw [Function.iterate_succ_apply', ← ih]
    rfl

theorem settles_bodies : Settles bodies body := by
  have h := guarded_bodies.settles (framed.bodyFor 0)
  simp only [← bodyFor_eq] at h
  exact h

/-- A repetition that ends: every step but the last passes a token. It does what it would do without
a bound on its steps, and any bound above the number of tokens left is as good. -/
structure Ending {σ : Type} (step : σ → Parser (σ × Bool)) : Prop extends Advances step where
  unfolds (a : σ) (s : ParseState) (hs : s.Ends) : iterate step a s =
    (step a >>= fun r => if r.2 then iterate step r.1 else pure r.1) s
  bounded (a : σ) (s : ParseState) (hs : s.Ends) (n : Nat) (hn : s.cursor.remaining < n) :
    iterateFor step n a s = iterate step a s

theorem Advances.ending {σ : Type} {step : σ → Parser (σ × Bool)} (h : Advances step) :
    Ending step :=
  ⟨h, fun a _ hs => h.unfold a hs, fun a _ hs _ hn =>
    h.bound_irrelevant a hs hn (Nat.lt_succ_self _)⟩

/-- All repetitions of the grammar, over a grammar for the expressions and a parser for the bodies
inside them. -/
structure EndingLoops (g : Grammar) (nested : Parser Body) : Prop where
  skipPast (closer : TokenKind) : Ending (skipPastStep closer)
  skipItem : Ending skipItemStep
  quoted (opening : Token) : Ending (quotedStep opening)
  operator (tighter : Parser Expr) (ht : Framed tighter) (level : Level)
    (hl : level ∈ BinaryOp.levels) : Ending (operatorStep tighter level)
  suffix : Ending (suffixStep (g .expression) fun each => g (.suffixes each))
  splat : Ending splatStep
  tuple (opening : Token) : Ending (tupleStep (g .expression) opening)
  object (opening : Token) : Ending (objectStep (g .expression) opening)
  argument (name opening : Token) : Ending (argumentStep (g .expression) name opening)
  template (closer : TokenKind) (start : SourceRange) :
    Ending (templateStep (g .expression) closer start)
  traversal (root : Token) : Ending (traversalStep root)
  header (name : Token) : Ending (headerStep name)
  body (closer : TokenKind) (start : SourceRange) : Ending (bodyStep nested closer start)

theorem endingLoops {g : Grammar} (hg : ∀ p, Framed (g p)) {nested : Parser Body}
    (hn : Framed nested) : EndingLoops g nested where
  skipPast closer := (advances_skipPastStep closer).ending
  skipItem := advances_skipItemStep.ending
  quoted _ := advances_quotedStep.ending
  operator _ ht _ hl := (advances_operatorStep ht hl).ending
  suffix := (advances_suffixStep (hg _) fun _ => hg _).ending
  splat := advances_splatStep.ending
  tuple _ := (advances_tupleStep (hg _)).ending
  object _ := (advances_objectStep (hg _)).ending
  argument name _ := (advances_argumentStep (hg _) name).ending
  template closer start := (advances_templateStep (hg _) closer start).ending
  traversal root := (advances_traversalStep root).ending
  header name := (advances_headerStep name).ending
  body closer start := (advances_bodyStep hn closer start).ending

end Parser

namespace Cursor

variable {c c' : Cursor}

theorem Reaches.position_add_remaining (h : c.Reaches c') :
    c'.position + c'.remaining = c.position + c.remaining := by
  obtain ⟨ts, hr, hp⟩ := h.tokens
  simp only [position, remaining, hr, hp, List.length_append, List.length_reverse]
  omega

/-- The tokens of a source, of which those passed are known, end with the end of the file. -/
def Whole (c : Cursor) : Prop :=
  (c.passed.reverse ++ c.rest).getLast? = some c.eof ∧ c.eof.kind = .eof

/-- The token passed last is the end of the file. -/
def AtEnd (c : Cursor) : Prop := ∃ t, c.passed.head? = some t ∧ t.kind = .eof

theorem Whole.reaches (h : c.Whole) (hr : c.Reaches c') : c'.Whole := by
  obtain ⟨ts, hrest, hpassed⟩ := hr.tokens
  have hall : c'.passed.reverse ++ c'.rest = c.passed.reverse ++ c.rest := by
    simp [hpassed, hrest]
  rw [Whole, hall, hr.eof]
  exact h

theorem Whole.atEnd_advance (h : c.Whole) (hk : c.peek.kind = .eof) : c.advance.AtEnd := by
  have hsplit : c.rest.takeWhile c.hides ++ c.rest.dropWhile c.hides = c.rest :=
    List.takeWhile_append_dropWhile
  unfold advance
  rcases hd : c.rest.dropWhile c.hides with _ | ⟨t, rest⟩
  · -- nothing is left, so the last token of all was passed
    refine ⟨c.eof, ?_, h.2⟩
    rw [hd, List.append_nil] at hsplit
    rw [hsplit, ← h.1, ← List.head?_reverse]
    simp
  · refine ⟨t, by simp, ?_⟩
    rwa [peek, hd] at hk

end Cursor

namespace Parser

/-- If `p` asks for no more, the end of the file was passed last. -/
def EndsFile {σ : Type} (p : Parser (σ × Bool)) (s : ParseState) : Prop :=
  (p s).value.2 = false → (p s).state.cursor.AtEnd

theorem endsFile_read_bind {σ : Type} {f : Token → Parser (σ × Bool)} {s : ParseState} :
    EndsFile (read >>= f) s ↔
      EndsFile (f s.cursor.peek) { s with cursor := s.cursor.advance } := Iff.rfl

theorem endsFile_skipPastStep (depth : Nat) {s : ParseState} (h : s.cursor.Whole) :
    EndsFile (skipPastStep .eof depth) s := by
  unfold skipPastStep
  rw [endsFile_read_bind]
  have hc : countedAs .eof s.cursor.peek.kind = s.cursor.peek.kind := by simp [countedAs]
  simp only [hc]
  split
  · rename_i hk
    exact fun _ => h.atEnd_advance hk
  · split <;> exact fun hdone => Bool.noConfusion hdone

theorem atEnd_skipPast {s : ParseState} (h : s.cursor.Whole) :
    (skipPast .eof s).state.cursor.AtEnd :=
  (advances_skipPastStep .eof).last_step (I := fun s => s.cursor.Whole)
    (Q := fun s => s.cursor.AtEnd) (fun a s h => h.reaches (framed.skipPastStep .eof a s))
    (fun a _ h => endsFile_skipPastStep a h) 0 (s := { s with recovering := true }) h.2 h

theorem framed_reportItem (start : SourceRange) (t : Token) : Framed (reportItem start t) := by
  unfold reportItem
  split <;> exact framed_reportFirst _ _ _

theorem endsFile_bodyStep (nested : Parser Body) (start : SourceRange) (items : Items)
    {s : ParseState} (h : s.cursor.Whole) : EndsFile (bodyStep nested .eof start items) s := by
  unfold bodyStep Watch.bodyStep
  rw [Watch.idle_on, endsFile_read_bind]
  split
  · rename_i hk
    exact fun _ => h.atEnd_advance hk
  split
  · exact fun hdone => Bool.noConfusion hdone
  · exact fun hdone => Bool.noConfusion hdone
  · refine fun _ => atEnd_skipPast ?_
    exact (h.reaches s.cursor.reaches_advance).reaches
      (framed_reportItem start s.cursor.peek { s with cursor := s.cursor.advance })

theorem atEnd_bodyWith {nested : Parser Body} (hn : Framed nested) {s : ParseState}
    (h : s.cursor.Whole) : (bodyWith nested .eof s).state.cursor.AtEnd := by
  have hstep := framed.bodyStep hn .eof s.cursor.previousRange
  exact (advances_bodyStep hn .eof _).last_step (I := fun s => s.cursor.Whole)
    (Q := fun s => s.cursor.AtEnd) (fun a s h => h.reaches (hstep a s))
    (fun a _ h => endsFile_bodyStep nested _ a h) _ h.2 h

end Parser

namespace TokenList

variable (tokens : TokenList)

theorem whole_start : tokens.start.cursor.Whole :=
  ⟨by simp [start, Cursor.ofTokens, toList], tokens.eof_kind⟩

/-- A run over a source: it goes forward in it and not past its end. -/
structure Within {α : Type} (p : Parser α) : Prop where
  reaches : tokens.start.cursor.Reaches (p tokens.start).state.cursor
  position_le : (p tokens.start).state.cursor.position ≤ tokens.splitLineComments.length

theorem within_of_framed {α : Type} {p : Parser α} (hp : Parser.Framed p) : tokens.Within p := by
  have h := hp tokens.start
  have hlen := h.position_add_remaining
  have hstart : tokens.start.cursor.position + tokens.start.cursor.remaining =
      tokens.splitLineComments.length := by
    simp [start, Cursor.ofTokens, Cursor.position, Cursor.remaining]
  exact ⟨h, by omega⟩

end TokenList

/-- Parsing ends. The equations of the grammar and of bodies, with no bound on nesting, have one
solution each, which the parsers are, and every repetition passes a token in each step but its
last. Runs over sources stay inside them, and a whole file is read to its end. -/
theorem parsing_ends :
    Parser.Settles Parser.production Parser.unbounded ∧
    Parser.expression = Parser.unbounded .expression ∧
    Parser.Settles Parser.bodies Parser.body ∧
    Parser.EndingLoops Parser.unbounded (Parser.body .closeBrace) ∧
    ∀ tokens : TokenList, tokens.start.Ends ∧
      (∀ closer, tokens.Within (Parser.body closer)) ∧
      tokens.Within Parser.wholeExpression ∧ tokens.Within Parser.wholeTemplate ∧
      tokens.Within (Parser.withNewlines false Parser.traversal) ∧
      (Parser.body .eof tokens.start).state.cursor.AtEnd := by
  refine ⟨Parser.settles_production, Parser.expression_eq, Parser.settles_bodies,
    Parser.endingLoops Parser.settles_production.framed (Parser.settles_bodies.framed _),
    fun tokens => ⟨tokens.eof_kind, fun closer => ?_, ?_, ?_, ?_, ?_⟩⟩
  · exact tokens.within_of_framed (Parser.framed.body closer)
  · exact tokens.within_of_framed (Parser.framed.wholeExpression Parser.framed_reportFirst)
  · exact tokens.within_of_framed Parser.framed.wholeTemplate
  · exact tokens.within_of_framed (Parser.framed.withNewlines false Parser.framed.traversal)
  · exact Parser.atEnd_bodyWith (Parser.framed.bodyFor _ _) tokens.whole_start

end HclSyntax
