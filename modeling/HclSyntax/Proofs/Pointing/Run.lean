import HclSyntax.Proofs.Range.Run
import HclSyntax.Proofs.Text.EscapePlace

namespace HclSyntax

/-- A range that runs forward inside `source`. -/
structure SourceRange.PartOf (source r : SourceRange) : Prop where
  from_le : source.lo ≤ r.lo
  forward : r.lo ≤ r.hi
  le_to : r.hi ≤ source.hi

/-- The diagnostic is about a part of the source, and so is its context, which holds the subject. A
second definition has the first one for its context, wherever that is. -/
structure Diagnostic.PointsInto (source : SourceRange) (d : Diagnostic) : Prop where
  subject : source.PartOf d.subject
  context : ∀ x ∈ d.context, source.PartOf x
  contains : ∀ x ∈ d.context, d.code ≠ .attributeRedefined → x.contains d.subject

/-- A token that lies in the source, is UTF-8 and as wide as its bytes. -/
structure Token.PartOf (source : SourceRange) (t : Token) : Prop where
  range : source.PartOf t.range
  valid : Utf8.Valid t.bytes
  exact : t.Exact

/-- A place between tokens in order that are all part of the source. -/
structure Cursor.On (source : SourceRange) (c : Cursor) : Prop where
  inOrder : c.InOrder
  tokens : ∀ t ∈ c.passed.reverse ++ c.rest, t.PartOf source

variable {source r s : SourceRange} {t : Token} {c c' : Cursor} {p : Problem}

namespace SourceRange.PartOf

theorem between (hr : source.PartOf r) (hs : source.PartOf s) :
    source.PartOf (.between r s) := by
  have := hr.from_le
  have := hr.forward
  have := hr.le_to
  have := hs.from_le
  have := hs.le_to
  constructor <;> simp only [lo_between, hi_between] <;> omega

theorem startPoint {filename : String} (h : source.PartOf r) :
    source.PartOf (.point filename r.start) :=
  ⟨h.from_le, Nat.le_refl _, Nat.le_trans h.forward h.le_to⟩

/-- A report about a part of the source. -/
theorem report (h : source.PartOf r) (p : Problem) : (p.toDiagnostic r none).PointsInto source :=
  ⟨h, by simp [Problem.toDiagnostic], by simp [Problem.toDiagnostic]⟩

theorem trans (h : source.PartOf r) (hs : r.PartOf s) : source.PartOf s :=
  ⟨Nat.le_trans h.from_le hs.from_le, hs.forward, Nat.le_trans hs.le_to h.le_to⟩

/-- A report about a part of its context. -/
theorem reportIn (hs : source.PartOf s) (h : s.PartOf r) (p : Problem) :
    (p.toDiagnostic r (some s)).PointsInto source := by
  refine ⟨hs.trans h, fun x hx => ?_, fun x hx _ => ?_⟩ <;> obtain rfl := Option.mem_some.mp hx
  · exact hs
  · exact contains_iff.mpr ⟨h.from_le, h.le_to⟩

/-- A report in a context that goes on up to its subject. -/
theorem reportAfter (h : source.PartOf r) (hs : source.PartOf s) (p : Problem) :
    (p.toDiagnostic r (some (.between s r))).PointsInto source := by
  have := h.forward
  refine (hs.between h).reportIn ⟨?_, h.forward, ?_⟩ p
  · rw [lo_between]
    omega
  · rw [hi_between]
    omega

end SourceRange.PartOf

/-- Escapes are reported inside of their token. -/
theorem Token.PartOf.decode (h : t.PartOf source) :
    ∀ d ∈ (StringChunk.decode t).2, d.PointsInto source := by
  intro d hd
  obtain ⟨front, cluster, back, hchars, hd, hlo, hhi⟩ := StringChunk.exists_of_mem_decode hd
  have hprefix : Utf8.encode (String.ofList (front ++ '\\' :: cluster)) <+: t.bytes := by
    refine ⟨Utf8.encode (String.ofList back), ?_⟩
    rw [← Utf8.encode_append, ← hchars]
    exact h.valid.encode_decode
  obtain ⟨hcontains, hforward, -⟩ := StringChunk.holdsEscape_of_isPrefix h.exact hd hlo hhi hprefix
  obtain ⟨hfrom, hto⟩ := SourceRange.contains_iff.mp hcontains
  have hpart : source.PartOf d.subject :=
    ⟨Nat.le_trans h.range.from_le hfrom, hforward, Nat.le_trans hto h.range.le_to⟩
  exact hd ▸ hpart.report _

namespace Cursor.On

theorem reaches (h : c.On source) (hr : c.Reaches c') : c'.On source := by
  refine ⟨(h.inOrder.reaches hr).inOrder, ?_⟩
  obtain ⟨ts, hrest, hpassed⟩ := hr.tokens
  have hall : c'.passed.reverse ++ c'.rest = c.passed.reverse ++ c.rest := by
    simp [hrest, hpassed]
  exact hall ▸ h.tokens

theorem advance (h : c.On source) : c.advance.On source := h.reaches c.reaches_advance

theorem enter (h : c.On source) (newlines : Bool) : (c.enter newlines).On source :=
  ⟨h.inOrder.enter newlines, h.tokens⟩

theorem leave (h : c.On source) : c.leave.On source := ⟨h.inOrder.leave, h.tokens⟩

theorem peek (h : c.On source) : c.peek.PartOf source := by
  have heof : c.eof ∈ c.passed.reverse ++ c.rest := List.mem_of_getLast? h.inOrder.whole.1
  rw [Cursor.peek]
  cases hd : c.rest.dropWhile c.hides with
  | nil => exact h.tokens _ heof
  | cons t rest =>
    have hmem : t ∈ c.rest := List.dropWhile_subset _ (hd ▸ List.mem_cons_self)
    exact h.tokens _ (List.mem_append_right _ hmem)

theorem previousRange (h : c.On source) : source.PartOf c.previousRange := by
  rw [Cursor.previousRange]
  cases hp : c.passed with
  | nil => exact h.peek.range
  | cons t passed => exact (h.tokens t (by simp [hp])).range

end Cursor.On

namespace Parser

variable {α β σ : Type} {V : α → Prop} {W : β → Prop} {P : α → Cursor → Prop}

/-- From `c` on all reports of `p` point into the source. It answers as told and stops at a place in
the source. -/
def MarksFrom (source : SourceRange) (c : Cursor) (p : Parser α) (V : α → Prop) : Prop :=
  ∀ b, (∀ d ∈ (p ⟨c, b⟩).diagnostics, d.PointsInto source) ∧
    (p ⟨c, b⟩).state.cursor.On source ∧ V (p ⟨c, b⟩).value

/-- The same from wherever in the source `p` starts. -/
def Marks (source : SourceRange) (p : Parser α) (V : α → Prop) : Prop :=
  ∀ ⦃c⦄, c.On source → MarksFrom source c p V

/-- All reports of `p` point into the source, whatever it answers. -/
abbrev Points (source : SourceRange) (p : Parser α) : Prop := Marks source p fun _ => True

section
variable {p : Parser α} {f : α → Parser β}

/-- What is known of the answer, and of the place where the first parser stops, may be used. -/
theorem MarksFrom.seq (h : MarksFrom source c p V) (he : Ends p c P)
    (hf : ∀ a c', c'.On source → V a → P a c' → MarksFrom source c' (f a) W) :
    MarksFrom source c (p >>= f) W := by
  intro b
  obtain ⟨hd, hc', hv⟩ := h b
  obtain ⟨hd', hw⟩ := hf _ _ hc' hv (he b fun _ _ => trivial) _
  exact ⟨List.forall_mem_append.mpr ⟨hd, hd'⟩, hw⟩

theorem Framed.follows (hp : Framed p) (hc : c.Follows t) : Ends p c fun _ c' => c'.Follows t :=
  fun b _ => hc.later (hc.inOrder.reaches (hp ⟨c, b⟩))

theorem MarksFrom.observe (h : MarksFrom source c p V) :
    MarksFrom source c (observe p) fun r => V r.1 := h

theorem MarksFrom.track (h : MarksFrom source c p V) :
    MarksFrom source c (track p) fun r => V r.1 := by
  intro b
  obtain ⟨hd, hc', hv⟩ := h b
  refine ⟨?_, hc', hv⟩
  change ∀ d ∈ (p ⟨c, b⟩).diagnostics ++ [], d.PointsInto source
  rwa [List.append_nil]

theorem MarksFrom.track_seq {f : α × Bool → Parser β} (h : MarksFrom source c p V)
    (he : Ends p c P)
    (hf : ∀ a lost c', c'.On source → V a → P a c' → MarksFrom source c' (f (a, lost)) W) :
    MarksFrom source c (Parser.track p >>= f) W := by
  have htrack : Ends (Parser.track p) c fun r c' => P r.1 c' :=
    he.observe_seq fun a reported c' ha => still_recovering.seq fun b => arrives_pure ha
  exact h.track.seq htrack fun r c' => hf r.1 r.2 c'

theorem MarksFrom.withNewlines {newlines : Bool}
    (h : MarksFrom source (c.enter newlines) p V) :
    MarksFrom source c (withNewlines newlines p) V :=
  fun b => ⟨(h b).1, (h b).2.1.leave, (h b).2.2⟩

end

theorem marksFrom_peek_bind {f : Token → Parser β} (h : MarksFrom source c (f c.peek) W) :
    MarksFrom source c (peek >>= f) W := h

theorem marksFrom_peekKind_bind {f : TokenKind → Parser β}
    (h : MarksFrom source c (f c.peek.kind) W) : MarksFrom source c (peekKind >>= f) W := h

theorem marksFrom_atKeyword_bind {keyword : String} {f : Bool → Parser β}
    (h : ∀ b, MarksFrom source c (f b) W) : MarksFrom source c (atKeyword keyword >>= f) W :=
  h (c.peek.isKeyword keyword)

theorem marksFrom_skip_bind {f : Unit → Parser β} (h : MarksFrom source c.advance (f ()) W) :
    MarksFrom source c (skip >>= f) W := h

section
variable {p : Parser α} {f : α → Parser β} {a : α}

theorem marks_pure (h : V a) : Marks source (pure a) V := fun _ hc _ => ⟨by simp [pure], hc, h⟩

theorem points_pure (a : α) : Points source (pure a) := marks_pure trivial

theorem Marks.bind (h : Marks source p V) (hf : ∀ a, V a → Marks source (f a) W) :
    Marks source (p >>= f) W := fun _ hc =>
  (h hc).seq (P := fun _ _ => True) (fun _ _ => trivial) fun a _ hc' hv _ => hf a hv hc'

theorem Points.bind (h : Points source p) (hf : ∀ a, Marks source (f a) W) :
    Marks source (p >>= f) W := Marks.bind h fun a _ => hf a

theorem Points.map (h : Points source p) (f : α → β) :
    Points source (p >>= fun a => pure (f a)) := h.bind fun a => points_pure (f a)

theorem Marks.observe (h : Marks source p V) : Marks source (observe p) fun r => V r.1 :=
  fun _ hc => (h hc).observe

theorem Marks.track (h : Marks source p V) : Marks source (track p) fun r => V r.1 :=
  fun _ hc => (h hc).track

theorem Marks.withNewlines (h : Marks source p V) (newlines : Bool) :
    Marks source (withNewlines newlines p) V := fun _ hc => (h (hc.enter newlines)).withNewlines

theorem marks_peek_bind {f : Token → Parser β}
    (h : ∀ t, t.PartOf source → Marks source (f t) W) : Marks source (peek >>= f) W :=
  fun _ hc => h _ hc.peek hc

theorem marks_peekKind_bind {f : TokenKind → Parser β} (h : ∀ k, Marks source (f k) W) :
    Marks source (peekKind >>= f) W := fun c hc => h c.peek.kind hc

theorem marks_atKeyword_bind {keyword : String} {f : Bool → Parser β}
    (h : ∀ b, Marks source (f b) W) : Marks source (atKeyword keyword >>= f) W :=
  fun c hc => h (c.peek.isKeyword keyword) hc

theorem marks_read_bind {f : Token → Parser β}
    (h : ∀ t, t.PartOf source → Marks source (f t) W) : Marks source (read >>= f) W :=
  fun _ hc => h _ hc.peek hc.advance

theorem points_skip : Points source skip := fun _ hc _ => ⟨by simp [skip], hc.advance, trivial⟩

theorem marks_previousRange : Marks source previousRange source.PartOf :=
  fun _ hc _ => ⟨by simp [previousRange], hc, hc.previousRange⟩

theorem points_recover : Points source recover := fun _ hc _ => ⟨by simp [recover], hc, trivial⟩

theorem points_recovering : Points source recovering :=
  fun _ hc _ => ⟨by simp [recovering], hc, trivial⟩

theorem points_tell {ds : List Diagnostic} (h : ∀ d ∈ ds, d.PointsInto source) :
    Points source (tell ds) := fun _ hc _ => ⟨h, hc, trivial⟩

theorem points_report {x : Option SourceRange} {m : Problem}
    (h : (m.toDiagnostic r x).PointsInto source) : Points source (report m r x) :=
  points_tell (by simpa using h)

theorem points_reportFirst {x : Option SourceRange} {m : Problem}
    (h : (m.toDiagnostic r x).PointsInto source) : Points source (reportFirst m r x) :=
  points_recovering.bind fun b => by
    cases b
    · exact points_report h
    · exact points_pure ()

theorem points_invalid : Points source invalid :=
  marks_peek_bind fun _ ht => (points_reportFirst (ht.range.report _)).bind fun _ =>
    points_recover.map _

/-- What the steps keep is so at the end. -/
theorem Marks.iterate {I : σ → Prop} {step : σ → Parser (σ × Bool)} {a : σ}
    (h : ∀ a, I a → Marks source (step a) fun r => I r.1) (ha : I a) :
    Marks source (iterate step a) I := by
  have hfor (n : Nat) (a : σ) (ha : I a) : Marks source (iterateFor step n a) I := by
    induction n generalizing a with
    | zero => exact points_invalid.bind fun _ => marks_pure ha
    | succ n ih =>
      refine (h a ha).bind fun r hr => ?_
      dsimp only
      split
      · exact ih r.1 hr
      · exact marks_pure hr
  exact fun c hc => hfor (c.remaining + 1) a ha hc

theorem Points.iterate {step : σ → Parser (σ × Bool)} (h : ∀ a, Points source (step a)) (a : σ) :
    Points source (iterate step a) := Marks.iterate (fun a _ => h a) trivial

end

theorem points_skipPast (closer : TokenKind) : Points source (skipPast closer) :=
  points_recover.bind fun _ => (Points.iterate (fun depth => marks_read_bind fun _ _ => by
    dsimp only
    repeat' split
    all_goals exact points_pure _) _).map _

theorem points_skipItem : Points source skipItem :=
  points_recover.bind fun _ => (Points.iterate (fun opened => marks_read_bind fun _ _ => by
    dsimp only
    repeat' split
    all_goals exact points_pure _) _).map _

theorem points_numberValue (ht : t.PartOf source) : Points source (numberValue t) := by
  unfold numberValue
  split
  · exact points_pure _
  · exact (points_report (ht.range.report _)).map _

theorem points_chunk (ht : t.PartOf source) : Points source (chunk t) :=
  (points_tell ht.decode).map _

theorem points_quotedString {opening : Token} (ho : opening.PartOf source) :
    Points source (quotedString opening) := by
  refine (Points.iterate (fun q => marks_read_bind fun t ht => ?_) _).map _
  have hreport (m : Problem) := points_report (ht.range.reportAfter ho.range m)
  split
  · exact points_pure _
  · exact (points_chunk ht).map _
  · exact (hreport _).bind fun _ => (points_skipPast _).map _
  · exact (hreport _).bind fun _ => (points_skipPast _).map _
  · exact (hreport _).map _
  · exact (hreport _).bind fun _ => (points_skipPast _).map _

end Parser

end HclSyntax
