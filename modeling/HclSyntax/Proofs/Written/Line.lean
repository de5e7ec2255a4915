import HclSyntax.Proofs.Containment
import HclSyntax.Proofs.Written.Expression
import HclSyntax.Proofs.Written.Value

namespace HclSyntax

open HclSyntax.Parser

/-- What is known of both readings where the one on its own is silent. -/
theorem Parser.Alike.yields {α : Type} {p p' : Parser α} {x : Surroundings} {c : Cursor}
    {Q : α → Cursor → Prop} (h : p.Alike x p' c Q) : p.Yields c fun a c' =>
      p.Reads c a c' ∧ p'.Reads (c.inBody x) a (c'.inBody x) ∧ Q a c' := by
  rw [yields_iff]
  intro hd
  obtain ⟨a, c', hr, hr', hq⟩ := h hd
  rw [show p ⟨c, false⟩ = ⟨a, [], c', false⟩ from hr]
  exact ⟨rfl, hr, hr', hq⟩

theorem splitComments_of_no_comment {ts : List Token} (h : ∀ t ∈ ts, t.kind ≠ .comment) :
    splitComments ts = ts := by
  induction ts with
  | nil => rfl
  | cons t ts ih => rw [splitComments_cons (h t (by simp)), ih fun x hx => h x (by simp [hx])]

/-- A value that a line can hold: it has no comments, and brackets shelter all its newlines. -/
structure LineValue extends CleanValue where
  uncommented : ∀ t ∈ tokens, t.kind ≠ .comment
  shelters : sheltered [] tokens

namespace LineValue

variable (v : LineValue)

theorem balanced : Balanced v.tokens := by
  obtain ⟨ts, hs, hsplit, hh, hd⟩ := v.derives
  have hts : Balanced ts := hd.balanced trivial
  have hhs : Balanced hs := fun rest pending => closes_hidden hh
  rw [← splitComments_of_no_comment v.uncommented, hsplit]
  exact hts.append hhs

/-- Where the value starts if it is all there is. -/
def start : Cursor := ⟨[], v.tokens ++ [v.stop.1], v.stop.1, [false]⟩

theorem inValue_start : v.start.InValue false [] [] v.start.remaining where
  modes_eq := rfl
  passed h := Bool.noConfusion h
  ends := v.stop.2
  ahead := by
    refine ⟨v.tokens, rfl, fun t ht => ⟨v.inside t ht, v.uncommented t ht⟩, ?_, v.shelters⟩
    have h := v.balanced [] []
    rwa [List.append_nil] at h
  remaining_le := Nat.le_refl _

theorem start_eq : v.list.start.cursor.enter false = v.start := by
  have hsplit := TokenList.splitLineComments_of_no_comment (l := v.list) v.uncommented
  unfold TokenList.start Cursor.ofTokens TokenList.toList
  rw [hsplit]
  rfl

/-- The whole value is read where it stands as it is read alone. -/
theorem reads_inBody {x : Surroundings} (hx : x.Line) :
    expression.Reads (v.start.inBody x) v.expr ⟨v.tokens.reverse ++ x.before, x.after, x.eof, []⟩ := by
  have hwhole : wholeExpression.Yields v.list.start.cursor fun e _ => ∃ c',
      expression.Reads v.start e c' ∧ expression.Reads (v.start.inBody x) e (c'.inBody x) ∧
        c'.rest = [c'.eof] := by
    unfold wholeExpression
    rw [yields_withNewlines, v.start_eq]
    have halike := carried_expression hx _ (Nat.le_refl _) Cursor.fits_nil v.inValue_start
    refine halike.yields.seq fun e c' h => ?_
    obtain ⟨hr, hr', hin⟩ := h
    simp only [yields_peek_bind]
    split
    · exact yields_reportFirst_bind _ _ _ _ _ _
    · rename_i hk
      rw [yields_pure]
      exact ⟨c', hr, hr', (hin.ended Cursor.fits_nil (Decidable.of_not_not hk)).2.2⟩
  obtain ⟨-, c', hr, hr', hend⟩ := hwhole.run v.clean
  -- only the end of the file was not passed
  have hreach : v.start.Reaches c' := by
    have h := framed.expression ⟨v.start, false⟩
    rwa [show expression ⟨v.start, false⟩ = _ from hr] at h
  have hplace : c'.inBody x = ⟨v.tokens.reverse ++ x.before, x.after, x.eof, []⟩ := by
    obtain ⟨ts, hrest, hpassed⟩ := hreach.tokens
    rw [hend, hreach.eof] at hrest
    obtain rfl : v.tokens = ts := (List.append_inj' hrest rfl).1
    simp [Cursor.inBody, hend, hpassed, hreach.modes, start]
  rw [← hplace]
  exact hr'

theorem reads {c : Cursor} {t : Token} (hm : c.modes = []) (hf : c.Faces true (v.tokens ++ [t]))
    (ht : t.kind = .newline) : expression.Reads c v.expr (c.past v.tokens) := by
  obtain ⟨after, hr⟩ := hf.next
  have hx : Surroundings.Line ⟨c.passed, t :: after, c.eof⟩ := ⟨⟨t, after, rfl, ht⟩, hf.inMode.ends⟩
  have h := v.reads_inBody hx
  obtain ⟨passed, rest, eof, modes⟩ := c
  obtain rfl : modes = [] := hm
  obtain rfl : v.tokens ++ [t] ++ after = rest := hr
  simpa [start, Cursor.inBody, Cursor.past] using h

end LineValue

theorem Parser.reads_endOfLine {c : Cursor} (name : Token) (problem : TokenKind → Problem)
    (hk : c.peek.kind = .newline) : (endOfLine name problem).Reads c () c.advance := by
  unfold endOfLine Watch.endOfLine
  simp only [reads_peek_bind, hk, reads_skip]

/-- A line that defines an attribute. -/
structure Definition where
  name : Token.Of .identifier
  equals : Token.Of .assign
  value : LineValue
  newline : Token.Of .newline

namespace Definition

variable (d : Definition)

def text : String := d.name.1.text

def print : List Token := d.name.1 :: d.equals.1 :: (d.value.tokens ++ [d.newline.1])

theorem uncommented : ∀ t ∈ d.print, t.kind ≠ .comment := by
  intro t ht
  simp only [print, List.mem_cons, List.mem_append, List.not_mem_nil, or_false] at ht
  rcases ht with rfl | rfl | ht | rfl
  · simp [d.name.2]
  · simp [d.equals.2]
  · exact d.value.uncommented t ht
  · simp [d.newline.2]

/-- The attribute of the line, with the tree that the value has alone. -/
def toAttribute : Attribute where
  name := d.text
  expr := d.value.expr
  range := .between d.name.1.range (d.value.tokens.getLastD d.equals.1).range
  nameRange := d.name.1.range
  equalsRange := d.equals.1.range

/-- The report that the name is defined already. -/
def redefines (first : Definition) : Diagnostic :=
  (Problem.attributeRedefined d.text first.name.1.range).toDiagnostic d.name.1.range
    (some first.name.1.range)

/-- What is reported of a definition after others in the same body. -/
def problems (earlier : List Definition) : List Diagnostic :=
  ((earlier.find? (·.text == d.text)).map d.redefines).toList

theorem reads_attributeValue {c : Cursor} (hm : c.modes = []) (hf : c.Faces true d.print) :
    (attributeValue d.name.1 d.equals.1 false).Reads (c.past [d.name.1, d.equals.1]) d.toAttribute
      (c.past d.print) := by
  have hall : c.Faces true ([d.name.1, d.equals.1] ++ (d.value.tokens ++ [d.newline.1])) := hf
  have hv := hall.right
  obtain ⟨hp, ha, -⟩ := hv.right.token (by simp [d.newline.2])
  have hrange : (c.past ([d.name.1, d.equals.1] ++ d.value.tokens)).previousRange =
      (d.value.tokens.getLastD d.equals.1).range := by
    rw [List.cons_append, Cursor.previousRange_past, List.singleton_append, List.getLastD_cons]
  unfold attributeValue Watch.attributeValue
  refine (d.value.reads (c := c.past [d.name.1, d.equals.1]) hm hv d.newline.2).track_bind ?_
  rw [Cursor.past_past] at hp ha ⊢
  simp only [reads_previousRange_bind, hrange, Bool.false_eq_true, if_false]
  refine (reads_endOfLine d.name.1 afterAttribute (by rw [hp, d.newline.2])).bind ?_
  rw [reads_pure, ha, Cursor.past_past]
  exact ⟨rfl, by simp [print]⟩

end Definition

/-- The first definition of every name, in their order. -/
def firsts : List Definition → List Definition
  | [] => []
  | d :: ds => d :: (firsts ds).filter (·.text != d.text)

/-- A name has its first definition. -/
theorem find?_firsts (name : String) (ds : List Definition) :
    (firsts ds).find? (·.text == name) = ds.find? (·.text == name) := by
  induction ds with
  | nil => rfl
  | cons d ds ih =>
    by_cases hd : d.text = name
    · simp [firsts, hd]
    · simp only [firsts, List.find?_cons, beq_eq_false_iff_ne.mpr hd, List.find?_filter, ← ih]
      congr 1
      funext x
      by_cases hx : x.text = name
      · simp [hx, Ne.symm hd]
      · simp [hx]

theorem firsts_concat (ds : List Definition) (d : Definition) : firsts (ds ++ [d]) =
    if ds.any (·.text == d.text) then firsts ds else firsts ds ++ [d] := by
  induction ds with
  | nil => rfl
  | cons x ds ih =>
    rw [List.cons_append, firsts, firsts, ih, List.any_cons]
    by_cases hx : x.text = d.text
    · by_cases hd : ds.any (·.text == d.text) <;> simp [hx, hd]
    · by_cases hd : ds.any (·.text == d.text) <;> simp [hx, hd, Ne.symm hx]

/-- No name is defined twice by first definitions. -/
theorem nodup_firsts (ds : List Definition) : ((firsts ds).map Definition.text).Nodup := by
  induction ds with
  | nil => exact .nil
  | cons d ds ih =>
    rw [firsts, List.map_cons, List.nodup_cons]
    refine ⟨by simp, ?_⟩
    exact ih.sublist (List.filter_sublist.map _)

/-- A definition is added if it is the first of its name, and reported if it is not. -/
theorem Definition.reports_define (d : Definition) {items : Items} {earlier : List Definition}
    (hi : items.attributes = (firsts earlier).map Definition.toAttribute) (c : Cursor) :
    (items.define d.toAttribute).Reports c
      { items with attributes := (firsts (earlier ++ [d])).map Definition.toAttribute }
      (d.problems earlier) c := by
  have hfind : items.attributes.find? (·.name == d.toAttribute.name) =
      (earlier.find? (·.text == d.text)).map Definition.toAttribute := by
    rw [hi, List.find?_map, ← find?_firsts]
    rfl
  unfold Items.define Definition.problems
  rw [hfind, firsts_concat]
  cases he : earlier.find? (·.text == d.text) with
  | none =>
    have hany : earlier.any (·.text == d.text) = false := by
      simpa [List.find?_eq_none] using he
    simp only [Option.map_none, hany, Bool.false_eq_true, if_false, List.map_append, ← hi]
    exact reports_pure
  | some first =>
    have hany : earlier.any (·.text == d.text) := by
      have := List.find?_some he
      exact List.any_eq_true.mpr ⟨first, List.mem_of_find?_eq_some he, this⟩
    simp only [Option.map_some, hany, if_true, ← hi]
    rfl

/-- A piece of a string whose text is decoded without a report. -/
abbrev CleanChunk := { t : Token // t.kind = .quotedChunk ∧ (StringChunk.decode t).2 = [] }

/-- A label in quotes. -/
structure Label where
  opening : Token.Of .openQuote
  chunks : List CleanChunk
  closing : Token.Of .closeQuote

namespace Label

variable (l : Label)

def print : List Token := l.opening.1 :: (l.chunks.map (·.1) ++ [l.closing.1])

def text : String := String.join (l.chunks.map fun t => (StringChunk.decode t.1).1)

def range : SourceRange := .between l.opening.1.range l.closing.1.range

theorem uncommented : ∀ t ∈ l.print, t.kind ≠ .comment := by
  intro t ht
  simp only [print, List.mem_cons, List.mem_append, List.mem_map, List.not_mem_nil, or_false] at ht
  rcases ht with rfl | ⟨x, -, rfl⟩ | rfl
  · simp [l.opening.2]
  · simp [x.2.1]
  · simp [l.closing.2]

theorem reads_chunks (opening : Token) (closing : Token.Of .closeQuote) (chunks : List CleanChunk) :
    ∀ {c : Cursor} (q : QuotedText), c.Faces true (chunks.map (·.1) ++ [closing.1]) →
      (iterate (quotedStep opening) q).Reads c
        ⟨(chunks.map fun t => (StringChunk.decode t.1).1).foldl (· ++ ·) q.text, closing.1.range⟩
        (c.past (chunks.map (·.1) ++ [closing.1])) := by
  induction chunks with
  | nil =>
    intro c q hf
    obtain ⟨hp, ha, -⟩ := hf.token (by simp [closing.2])
    have hstep : (quotedStep opening q).Reads c ({ q with stop := closing.1.range }, false)
        (c.past [closing.1]) := by
      unfold quotedStep
      simp only [reads_read_bind, hp, closing.2, ha]
      exact reads_pure.mpr ⟨rfl, rfl⟩
    exact advances_quotedStep.reports_last hf.inMode.ends hstep.reports
  | cons t chunks ih =>
    intro c q hf
    obtain ⟨hp, ha, hrest⟩ := hf.token (by simp [t.2.1])
    have hchunk : (chunk t.1).Reads (c.past [t.1]) (StringChunk.decode t.1).1 (c.past [t.1]) := by
      unfold chunk
      simp only [t.2.2, reads_tell_nil_bind]
      exact reads_pure.mpr ⟨rfl, rfl⟩
    have hstep : (quotedStep opening q).Reads c
        ({ q with text := q.text ++ (StringChunk.decode t.1).1 }, true) (c.past [t.1]) := by
      unfold quotedStep
      simp only [reads_read_bind, hp, t.2.1, ha]
      exact hchunk.bind (reads_pure.mpr ⟨rfl, rfl⟩)
    have hall : (iterate (quotedStep opening) q).Reads c _ _ :=
      advances_quotedStep.reports_more hf.inMode.ends hstep (ih _ hrest)
    rwa [Cursor.past_past] at hall

theorem reads_quotedString {c : Cursor} (hf : c.Faces true l.print) :
    (quotedString l.opening.1).Reads (c.past [l.opening.1]) (l.text, l.range) (c.past l.print) := by
  have hall : c.Faces true ([l.opening.1] ++ (l.chunks.map (·.1) ++ [l.closing.1])) := hf
  have h := reads_chunks l.opening.1 l.closing l.chunks ⟨"", l.opening.1.range⟩ hall.right
  rw [Cursor.past_past] at h
  unfold quotedString
  exact h.bind (reads_pure.mpr ⟨rfl, rfl⟩)

end Label

/-- The line that opens a block. -/
structure Header where
  type : Token.Of .identifier
  labels : List Label
  brace : Token.Of .openBrace
  newline : Token.Of .newline

namespace Header

variable (h : Header)

/-- From the type to the brace. -/
def opening : List Token := h.type.1 :: (h.labels.flatMap Label.print ++ [h.brace.1])

def print : List Token := h.opening ++ [h.newline.1]

theorem uncommented : ∀ t ∈ h.print, t.kind ≠ .comment := by
  intro t ht
  simp only [print, opening, List.mem_cons, List.mem_append, List.mem_flatMap, List.not_mem_nil,
    or_false] at ht
  rcases ht with (rfl | ⟨l, -, ht⟩ | rfl) | rfl
  · simp [h.type.2]
  · exact l.uncommented t ht
  · simp [h.brace.2]
  · simp [h.newline.2]

/-- The labels up to the brace, after others. -/
theorem reads_labels (name : Token) (brace : Token.Of .openBrace) (labels : List Label) :
    ∀ {c : Cursor} (x : BlockHeader), c.Faces true (labels.flatMap Label.print ++ [brace.1]) →
      (iterate (headerStep name) x).Reads c
        ⟨x.labels ++ labels.map Label.text, x.labelRanges ++ labels.map Label.range, some brace.1⟩
        (c.past (labels.flatMap Label.print ++ [brace.1])) := by
  induction labels with
  | nil =>
    intro c x hf
    obtain ⟨hp, ha, -⟩ := hf.token (by simp [brace.2])
    have hstep : (headerStep name x).Reads c ({ x with brace := some brace.1 }, false)
        (c.past [brace.1]) := by
      unfold headerStep Watch.headerStep
      simp only [reads_peek_bind, hp, brace.2, reads_skip_bind, ha]
      exact reads_pure.mpr ⟨rfl, rfl⟩
    have hall : (iterate (headerStep name) x).Reads c _ _ :=
      (advances_headerStep name).reports_last hf.inMode.ends hstep
    simpa using hall
  | cons l labels ih =>
    intro c x hf
    rw [List.flatMap_cons, List.append_assoc] at hf ⊢
    have hl : c.Faces true (l.opening.1 :: (l.chunks.map (·.1) ++ [l.closing.1])) := hf.left
    obtain ⟨hp, ha, -⟩ := hl.token (by simp [l.opening.2])
    have hstep : (headerStep name x).Reads c
        (⟨x.labels ++ [l.text], x.labelRanges ++ [l.range], none⟩, true) (c.past l.print) := by
      unfold headerStep Watch.headerStep
      simp only [reads_peek_bind, hp, l.opening.2, reads_skip_bind, ha]
      refine (l.reads_quotedString hf.left).observe_bind ?_
      exact reads_pure.mpr ⟨rfl, rfl⟩
    have hall : (iterate (headerStep name) x).Reads c _ _ :=
      (advances_headerStep name).reports_more hf.inMode.ends hstep (ih _ hf.right)
    rw [Cursor.past_past] at hall
    simpa using hall

/-- Behind the type of a block there is a label or the brace. -/
theorem kind_after_type {c : Cursor} {brace : Token.Of .openBrace} {labels : List Label}
    (hf : c.Faces true (labels.flatMap Label.print ++ [brace.1])) :
    c.peek.kind = .openQuote ∨ c.peek.kind = .openBrace := by
  cases labels with
  | nil =>
    obtain ⟨hp, -⟩ := hf.token (by simp [brace.2])
    exact .inr (by rw [hp, brace.2])
  | cons l labels =>
    rw [List.flatMap_cons, List.append_assoc] at hf
    have hl : c.Faces true (l.opening.1 :: (l.chunks.map (·.1) ++ [l.closing.1])) := hf.left
    obtain ⟨hp, -⟩ := hl.token (by simp [l.opening.2])
    exact .inl (by rw [hp, l.opening.2])

end Header

end HclSyntax
