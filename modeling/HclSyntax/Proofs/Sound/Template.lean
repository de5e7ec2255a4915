import HclSyntax.Proofs.Sound.Collection
import HclSyntax.Proofs.Reads
import HclSyntax.Proofs.Sound.Nesting

namespace HclSyntax

namespace RawPiece

/-- Whether white space is stripped at the start of a text that follows these pieces. -/
def stripsAfter (strip : Bool) : List RawPiece → Bool
  | [] => strip
  | text _ :: raws => stripsAfter false raws
  | sequence _ after _ :: raws => stripsAfter after raws

/-- The pieces with the end of the last one stripped, if that is text. -/
def trimLast (ps : List Piece) : List Piece :=
  match ps.getLast? with
  | some (.text value) => ps.dropLast ++ [.text (TemplatePart.trimEnd value)]
  | _ => ps

theorem trimLast_cons (p : Piece) {ps : List Piece} (h : ps ≠ []) :
    trimLast (p :: ps) = p :: trimLast ps := by
  obtain ⟨ps', q, rfl⟩ := List.eq_nil_or_concat ps |>.resolve_left h
  have hl : (p :: (ps' ++ [q])).getLast? = some q := by simp [List.getLast?_cons]
  have hd : (p :: (ps' ++ [q])).dropLast = p :: ps' := by
    rw [← List.cons_append, List.dropLast_concat]
  unfold trimLast
  rw [List.concat_eq_append, hl, hd]
  cases q <;> simp

theorem strippedFrom_eq_nil {strip : Bool} {raws : List RawPiece} :
    strippedFrom strip raws = [] ↔ raws = [] := by
  cases raws with
  | nil => simp [strippedFrom]
  | cons r raws => cases r <;> simp [strippedFrom]

theorem stripsAfter_concat_text (strip : Bool) (raws : List RawPiece) (value : String) :
    stripsAfter strip (raws ++ [.text value]) = false := by
  induction raws generalizing strip with
  | nil => rfl
  | cons r raws ih => cases r <;> exact ih _

theorem stripsAfter_concat_sequence (strip : Bool) (raws : List RawPiece) (before after : Bool)
    (s : Sequence) : stripsAfter strip (raws ++ [.sequence before after s]) = after := by
  induction raws generalizing strip with
  | nil => rfl
  | cons r raws ih => cases r <;> exact ih _

theorem stripsBefore_concat_text (raws : List RawPiece) (value : String) :
    stripsBefore (raws ++ [.text value]) = stripsBefore raws := by
  cases raws with
  | nil => rfl
  | cons r raws => cases r <;> rfl

/-- One more text: its start is stripped as the pieces before it say. -/
theorem strippedFrom_concat_text (strip : Bool) (raws : List RawPiece) (value : String) :
    strippedFrom strip (raws ++ [.text value]) = strippedFrom strip raws ++
      [.text (if stripsAfter strip raws then TemplatePart.trimStart value else value)] := by
  induction raws generalizing strip with
  | nil => rfl
  | cons r raws ih =>
    cases r with
    | text v =>
      rw [List.cons_append, strippedFrom, ih, stripsBefore_concat_text]
      rfl
    | sequence b a p =>
      rw [List.cons_append, strippedFrom, ih]
      rfl

/-- One more sequence: it may strip the end of the text before it. -/
theorem strippedFrom_concat_sequence (strip : Bool) (raws : List RawPiece) (before after : Bool)
    (s : Sequence) : strippedFrom strip (raws ++ [.sequence before after s]) =
      (if before then trimLast (strippedFrom strip raws) else strippedFrom strip raws) ++
        [.sequence s] := by
  induction raws generalizing strip with
  | nil => cases before <;> rfl
  | cons r raws ih =>
    rcases raws with _ | ⟨r', raws⟩
    · cases r with
      | text v => cases before <;> rfl
      | sequence b a q => cases before <;> rfl
    have hne (s : Bool) : strippedFrom s (r' :: raws) ≠ [] := by simp [strippedFrom_eq_nil]
    have hb : stripsBefore (r' :: raws ++ [.sequence before after s]) =
        stripsBefore (r' :: raws) := by cases r' <;> rfl
    cases r with
    | text v =>
      rw [List.cons_append, strippedFrom, strippedFrom, ih, hb]
      cases before <;> simp [trimLast_cons _ (hne _)]
    | sequence b a q =>
      rw [List.cons_append, strippedFrom, strippedFrom, ih]
      cases before <;> simp [trimLast_cons _ (hne _)]

end RawPiece

namespace Parser

theorem piece_trimLast (parts : List TemplatePart) :
    (TemplatePart.trimLast parts).map TemplatePart.piece =
      RawPiece.trimLast (parts.map TemplatePart.piece) := by
  unfold TemplatePart.trimLast RawPiece.trimLast
  rw [List.getLast?_map]
  rcases h : parts.getLast? with _ | p
  · rfl
  cases p with
  | text value r => simp [TemplatePart.piece]
  | interpolation e r => simp [TemplatePart.piece]
  | directive d r => simp [TemplatePart.piece]

variable {expression : Parser Expr} {opening : Token} {c₀ c : Cursor} {nl : Bool}

/-- The parts of a template so far are these pieces. -/
structure TemplateParts.Hold (a : TemplateParts) (raws : List RawPiece) : Prop where
  parts : a.parts.map TemplatePart.piece = RawPiece.strippedFrom false raws
  strip : a.strip = RawPiece.stripsAfter false raws

theorem TemplateParts.Hold.text {a : TemplateParts} {raws : List RawPiece} (h : a.Hold raws)
    (text : String) (range : SourceRange) : TemplateParts.Hold ⟨a.parts ++ [.text
      (if a.strip then TemplatePart.trimStart text else text) range], false⟩
        (raws ++ [.text text]) := by
  refine ⟨?_, (RawPiece.stripsAfter_concat_text _ _ _).symm⟩
  rw [RawPiece.strippedFrom_concat_text, ← h.strip, List.map_append, h.parts]
  rfl

theorem TemplateParts.Hold.sequence {a : TemplateParts} {raws : List RawPiece} (h : a.Hold raws)
    (opening : Token) {p : TemplatePart} {s : Sequence} (hs : p.piece = .sequence s)
    (after : Bool) : TemplateParts.Hold ⟨a.before opening ++ [p], after⟩
      (raws ++ [.sequence opening.stripsBefore after s]) := by
  refine ⟨?_, (RawPiece.stripsAfter_concat_sequence _ _ _ _ _).symm⟩
  rw [RawPiece.strippedFrom_concat_sequence, List.map_append, TemplateParts.before,
    List.map_singleton, hs]
  split
  · rw [piece_trimLast, h.parts]
  · rw [h.parts]

/-- A template without any part is an empty text. -/
theorem TemplateParts.Hold.pieces {a : TemplateParts} {raws : List RawPiece} (h : a.Hold raws)
    (range : SourceRange) : (if a.parts.isEmpty then [TemplatePart.text "" range]
      else a.parts).map TemplatePart.piece = RawPiece.pieces raws := by
  unfold RawPiece.pieces
  rcases raws with _ | ⟨r, raws⟩
  · have hnil : a.parts = [] := List.map_eq_nil_iff.mp h.parts
    simp [hnil, TemplatePart.piece]
  · have hne : a.parts ≠ [] := by
      intro hnil
      have hparts := h.parts
      rw [hnil] at hparts
      exact absurd (RawPiece.strippedFrom_eq_nil.mp hparts.symm) (by simp)
    simpa [hne] using h.parts

/-- The pieces so far are written from `c₀` to `c`. -/
structure PartsRead (nl : Bool) (c₀ : Cursor) (a : TemplateParts) (raws : List RawPiece)
    (c : Cursor) : Prop where
  covers : c₀.Covers (.parts nl raws) c
  hold : a.Hold raws

theorem sound_interpolation (he : ReadsAs expression .expression) (hc : c.InMode nl)
    (start : SourceRange) : (interpolation expression start opening).Yields c fun r c' =>
      ∃ e t ts ts' range, c.Passes (ts ++ ts') c' ∧ Derives (.expression false e.tree) ts ∧
        t.kind = .sequenceEnd ∧ Sees false t ts' ∧
        r = (.interpolation e range, t.stripsAfter) := by
  have h : (withNewlines false (do
      let e ← expression
      return (e, ← closeSequence .extraInInterpolation start))).Yields c fun r c' =>
        ∃ t ts ts', c.Passes (ts ++ ts') c' ∧ Derives (.expression false r.1.tree) ts ∧
          t.kind = .sequenceEnd ∧ Sees false t ts' ∧ r.2 = t.stripsAfter := by
    rw [yields_withNewlines]
    refine (he _ _ (hc.enter false)).seq fun e c₁ ⟨ts₁, hp₁, hd⟩ => ?_
    refine (yields_closeSequence _ _).seq fun strip c₂ ⟨hk, hs, hc₂⟩ => ?_
    obtain ⟨ts₂, hp₂, hsees⟩ := (hp₁.inMode (hc.enter false)).sees (by simp [hk])
    rw [yields_pure]
    exact ⟨c₁.peek, ts₁, ts₂, (hp₁.trans (hc₂ ▸ hp₂)).leave, hd, hk, hsees, hs⟩
  unfold interpolation
  refine h.seq fun ⟨e, strip⟩ c' ⟨t, ts, ts', hp, hd, hk, hs, hstrip⟩ => ?_
  simp only [yields_previousRange_bind, yields_pure]
  subst hstrip
  exact ⟨e, t, ts, ts', _, hp, hd, hk, hs, rfl⟩

theorem sound_loopCollection (he : ReadsAs expression .expression) (hc : c.InMode false)
    (key : Option String) (value : String) :
    (loopCollection expression key value).Yields c fun d c' => ∃ e ts ts',
      d = some (.forStart key value e) ∧ c.Passes (ts ++ ts') c' ∧ Keyword false "in" ts ∧
        Derives (.expression false e.tree) ts' := by
  unfold loopCollection
  simp only [yields_atKeyword_bind]
  split
  · rename_i hk
    obtain ⟨ts, hp, hin⟩ := hc.keyword hk
    simp only [yields_skip_bind]
    refine (he _ _ (hp.inMode hc)).seq ?_
    rintro e c' ⟨ts', hp', hd⟩
    rw [yields_pure]
    exact ⟨e, ts, ts', rfl, hp.trans hp', hin, hd⟩
  · simp

theorem sound_loopHeader (he : ReadsAs expression .expression) (hc : c.InMode false) :
    (loopHeader expression).Yields c fun d c' => ∃ k v e ts ts', d = some (.forStart k v e) ∧
      c.Passes (ts ++ ts') c' ∧ Binders k v ts ∧ Derives (.expression false e.tree) ts' := by
  unfold loopHeader
  simp only [yields_read_bind]
  split
  · simp
  rename_i hk₁
  obtain ⟨ts₁, hp₁, hn₁⟩ := hc.name (Decidable.of_not_not hk₁)
  have hc₁ := hp₁.inMode hc
  simp only [yields_peekKind_bind]
  split
  · refine (sound_loopCollection he hc₁ none _).mono ?_
    rintro d c' ⟨e, ts, ts', hd, hp, hin, he⟩
    exact ⟨none, _, e, _, ts', hd, List.append_assoc .. ▸ hp₁.trans hp, .value hn₁ hin, he⟩
  rename_i hcomma
  obtain ⟨ts₂, hp₂, hm⟩ := hc₁.mark (Decidable.of_not_not hcomma)
  have hc₂ := hp₂.inMode hc₁
  simp only [yields_skip_bind, yields_read_bind]
  split
  · simp
  rename_i hk₃
  obtain ⟨ts₃, hp₃, hn₃⟩ := hc₂.name (Decidable.of_not_not hk₃)
  refine (sound_loopCollection he (hp₃.inMode hc₂) _ _).mono ?_
  rintro d c' ⟨e, ts, ts', hd, hp, hin, he⟩
  refine ⟨_, _, e, _, ts', hd, ?_, .keyValue hn₁ hm hn₃ hin, he⟩
  simpa only [List.append_assoc] using ((hp₁.trans hp₂).trans hp₃).trans hp

theorem sound_directiveContent (he : ReadsAs expression .expression) {ts₀ : List Token}
    {keyword : Token} (hp₀ : c₀.Passes ts₀ c) (hc : c.InMode false)
    (hn : Name false keyword.text ts₀) :
    (directiveContent expression opening keyword).Yields c fun d c' =>
      ∃ x, d = some x ∧ c₀.Covers (.directive x.sequence) c' := by
  unfold directiveContent
  split
  · rename_i h
    rw [h] at hn
    refine (he _ _ hc).seq fun e c' ⟨ts, hp, hd⟩ => ?_
    rw [yields_pure]
    exact ⟨_, rfl, _, hp₀.trans hp, .ifStart hn hd⟩
  · rename_i h
    rw [h] at hn
    rw [yields_pure]
    exact ⟨_, rfl, _, hp₀, .elseMark hn⟩
  · rename_i h
    rw [h] at hn
    rw [yields_pure]
    exact ⟨_, rfl, _, hp₀, .endif hn⟩
  · rename_i h
    rw [h] at hn
    refine (sound_loopHeader he hc).mono fun d c' ⟨k, v, e, ts, ts', hd, hp, hb, hd'⟩ => ?_
    refine ⟨_, hd, _, hp₀.trans hp, ?_⟩
    rw [← List.append_assoc]
    exact .forStart hn hb hd'
  · rename_i h
    rw [h] at hn
    rw [yields_pure]
    exact ⟨_, rfl, _, hp₀, .endfor hn⟩
  · simp

theorem sound_directive (he : ReadsAs expression .expression) (hc : c.InMode false) :
    (directive expression opening).Yields c fun r c' =>
      ∃ d t ts ts' range, c.Passes (ts ++ ts') c' ∧ Derives (.directive d.sequence) ts ∧
        t.kind = .sequenceEnd ∧ Sees false t ts' ∧
        r = (some (.directive d range), t.stripsAfter) := by
  unfold directive
  simp only [yields_peek_bind]
  split
  · simp
  rename_i hk
  obtain ⟨ts₀, hp₀, hn⟩ := hc.name (Decidable.of_not_not hk)
  have hc₁ := hp₀.inMode hc
  simp only [yields_skip_bind]
  refine (sound_directiveContent he hp₀ hc₁ hn).seq ?_
  rintro d c₂ ⟨x, hx, ts, hp, hd⟩
  subst hx
  refine (yields_closeSequence _ _).seq ?_
  rintro strip c₃ ⟨hk, hs, hc₃⟩
  subst hs hc₃
  obtain ⟨ts', hp', hsees⟩ := (hp.inMode hc).sees (by simp [hk])
  simp only [yields_previousRange_bind, yields_pure]
  exact ⟨x, _, ts, ts', _, hp.trans hp', hd, hk, hsees, rfl⟩

theorem sound_templateStep (he : ReadsAs expression .expression) (hc₀ : c₀.InMode nl)
    {closer : TokenKind} (hcl : closer ≠ .eof) (start : SourceRange) {a : TemplateParts}
    {raws : List RawPiece} (h : PartsRead nl c₀ a raws c) :
    (templateStep expression closer start a).Yields c fun r c' =>
      if r.2 then ∃ raws, PartsRead nl c₀ r.1 raws c'
      else ∃ raws c₁ ts, PartsRead nl c₀ r.1 raws c₁ ∧ c₁.Passes ts c' ∧ Mark nl closer ts := by
  obtain ⟨ts, hp, hd⟩ := h.covers
  have hc := hp.inMode hc₀
  have hchunk (hk : c.peek.kind = .quotedChunk ∨ c.peek.kind = .plainChunk) :
      (chunk c.peek >>= fun text => pure (⟨a.parts ++ [TemplatePart.text
        (if a.strip then TemplatePart.trimStart text else text) c.peek.range], false⟩, true) :
        Parser (TemplateParts × Bool)).Yields c.advance fun r c' =>
        if r.2 then ∃ raws, PartsRead nl c₀ r.1 raws c'
        else ∃ raws c₁ ts, PartsRead nl c₀ r.1 raws c₁ ∧ c₁.Passes ts c' ∧ Mark nl closer ts := by
    obtain ⟨ts₁, hp₁, hs⟩ := hc.sees (by rcases hk with h | h <;> simp [h])
    refine (yields_chunk _).seq ?_
    rintro text c' ⟨htext, hc'⟩
    subst hc'
    simp only [yields_pure, if_true]
    exact ⟨_, ⟨_, hp.trans hp₁, .chunk hd hk hs htext⟩, h.hold.text _ _⟩
  unfold templateStep
  simp only [yields_read_bind]
  split
  · rename_i hk
    obtain ⟨ts₁, hp₁, hm⟩ := hc.mark hk hcl
    simp only [yields_pure, Bool.false_eq_true, if_false]
    exact ⟨raws, c, ts₁, h, hp₁, hm⟩
  split
  · rename_i hk
    exact hchunk (.inl hk)
  · rename_i hk
    exact hchunk (.inr hk)
  · rename_i hk
    obtain ⟨ts₁, hp₁, hs⟩ := hc.sees (by simp [hk])
    refine (sound_interpolation he (hp₁.inMode hc) start).seq ?_
    rintro r c' ⟨e, t, ts₂, ts₃, range, hp₂, hd₂, hkt, hst, hr⟩
    subst hr
    simp only [yields_pure, if_true]
    refine ⟨raws ++ [.sequence c.peek.stripsBefore t.stripsAfter (.interpolation e.tree)],
      ⟨_, (hp.trans hp₁).trans hp₂, ?_⟩, h.hold.sequence _ rfl _⟩
    rw [← List.append_assoc]
    exact .interpolation hd hk hs hd₂ hkt hst
  · rename_i hk
    obtain ⟨ts₁, hp₁, hs⟩ := hc.sees (by simp [hk])
    have hdir : (withNewlines false (directive expression c.peek)).Yields c.advance fun r c' =>
        ∃ d t ts ts' range, c.advance.Passes (ts ++ ts') c' ∧ Derives (.directive d.sequence) ts ∧
          t.kind = .sequenceEnd ∧ Sees false t ts' ∧
          r = (some (.directive d range), t.stripsAfter) := by
      rw [yields_withNewlines]
      refine (sound_directive he ((hp₁.inMode hc).enter false)).mono ?_
      rintro r c' ⟨d, t, ts, ts', range, hp, h⟩
      exact ⟨d, t, ts, ts', range, hp.leave, h⟩
    refine hdir.seq ?_
    rintro r c' ⟨d, t, ts₂, ts₃, range, hp₂, hd₂, hkt, hst, hr⟩
    subst hr
    simp only [yields_pure, if_true]
    refine ⟨raws ++ [.sequence c.peek.stripsBefore t.stripsAfter d.sequence],
      ⟨_, (hp.trans hp₁).trans hp₂, ?_⟩, h.hold.sequence _ rfl _⟩
    rw [← List.append_assoc]
    exact .directive hd hk hs hd₂ hkt hst
  · simp

/-- What the expressions of a template make. -/
theorem reads_templateExpr {parts : List TemplatePart} {es : List Expr} {stop : SourceRange}
    (h : Nesting.ofParts parts stop = (es, [])) (range : SourceRange) :
    ∃ x, (templateExpr parts stop range).Reads c x c ∧
      x.tree = .ofPieces (parts.map TemplatePart.piece) (es.map Expr.tree) := by
  unfold templateExpr
  simp only [h, reads_tell_nil_bind]
  split
  · rename_i e r inner
    exact ⟨.templateWrap inner range, rfl, rfl⟩
  · rename_i hx
    refine ⟨.template es range, rfl, ?_⟩
    unfold Tree.ofPieces
    split
    · rename_i p q hps hes
      obtain ⟨part, rfl, hpart⟩ := List.map_eq_singleton_iff.mp hps
      obtain ⟨e, rfl, -⟩ := List.map_eq_singleton_iff.mp hes
      cases part with
      | interpolation e' r => exact absurd rfl (hx e' r e rfl)
      | text => simp [TemplatePart.piece] at hpart
      | directive d => cases d <;> simp [TemplatePart.piece, Directive.sequence] at hpart
    · simp [Expr.tree]

theorem sound_templateExpr {raws : List RawPiece} {parts : List TemplatePart}
    (h : parts.map TemplatePart.piece = RawPiece.pieces raws) (stop range : SourceRange) :
    (templateExpr parts stop range).Yields c fun e c' => c' = c ∧
      ∃ es, Nested (RawPiece.pieces raws) es ∧ e.tree = .ofPieces (RawPiece.pieces raws) es := by
  rw [yields_iff]
  intro hd
  have hproblems : (Nesting.ofParts parts stop).2 = [] := (List.append_eq_nil_iff.mp hd).1
  have hn := Nesting.nested_ofParts hproblems
  obtain ⟨x, hx, htree⟩ := reads_templateExpr (c := c) (Prod.ext rfl hproblems) range
  rw [hx]
  rw [h] at hn htree
  exact ⟨rfl, rfl, _, hn, htree⟩

/-- A template, through its closing token. -/
theorem sound_template (he : ReadsAs expression .expression) (hc : c.InMode nl)
    {closer : TokenKind} (hcl : closer ≠ .eof) (start : SourceRange) :
    (template expression start closer).Yields c fun e c' => ∃ raws es ts ts',
      c.Passes (ts ++ ts') c' ∧ Derives (.parts nl raws) ts ∧ Mark nl closer ts' ∧
        Nested (RawPiece.pieces raws) es ∧ e.tree = .ofPieces (RawPiece.pieces raws) es := by
  unfold template
  simp only [yields_peek_bind]
  have h : (iterate (templateStep expression closer c.peek.range) ⟨[], false⟩).Yields c
      fun a c' => ∃ raws c₁ ts, PartsRead nl c a raws c₁ ∧ c₁.Passes ts c' ∧ Mark nl closer ts :=
    Yields.iterate (I := fun a c' => ∃ raws, PartsRead nl c a raws c')
      (fun a c' h => sound_templateStep he hc hcl _ h.choose_spec)
      ⟨[], ⟨[], .refl c, .noPart⟩, rfl, rfl⟩
  refine h.seq ?_
  rintro a c₂ ⟨raws, c₁, ts', ⟨⟨ts, hp, hd⟩, hhold⟩, hp', hm⟩
  simp only [yields_previousRange_bind]
  refine (sound_templateExpr (hhold.pieces _) _ _).mono ?_
  rintro e c₃ ⟨hc₃, es, hn, he⟩
  subst hc₃
  exact ⟨raws, es, ts, ts', hp.trans hp', hd, hm, hn, he⟩

end Parser

end HclSyntax
