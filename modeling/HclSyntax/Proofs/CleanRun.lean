import Mathlib
import HclSyntax.Parser.Resync

namespace HclSyntax.Parser

variable {α β σ : Type}

/-- If `p` reports nothing from `c` on, it does not recover either, and `Q` holds where it ends. -/
def Yields (p : Parser α) (c : Cursor) (Q : α → Cursor → Prop) : Prop :=
  (p ⟨c, false⟩).diagnostics = [] →
    (p ⟨c, false⟩).state.recovering = false ∧ Q (p ⟨c, false⟩).value (p ⟨c, false⟩).state.cursor

theorem yields_iff {p : Parser α} {c : Cursor} {Q : α → Cursor → Prop} :
    p.Yields c Q ↔ ((p ⟨c, false⟩).diagnostics = [] → (p ⟨c, false⟩).state.recovering = false ∧
      Q (p ⟨c, false⟩).value (p ⟨c, false⟩).state.cursor) := Iff.rfl

theorem Yields.mono {p : Parser α} {c : Cursor} {Q Q' : α → Cursor → Prop} (h : p.Yields c Q)
    (hQ : ∀ a c', Q a c' → Q' a c') : p.Yields c Q' := by
  intro hd
  obtain ⟨hr, hq⟩ := h hd
  exact ⟨hr, hQ _ _ hq⟩

theorem Yields.and {p : Parser α} {c : Cursor} {Q Q' : α → Cursor → Prop} (h : p.Yields c Q)
    (h' : p.Yields c Q') : p.Yields c fun a c' => Q a c' ∧ Q' a c' := by
  intro hd
  exact ⟨(h hd).1, (h hd).2, (h' hd).2⟩

/-- Only what a parser does from `c` on matters. -/
theorem Yields.congr {p q : Parser α} {c : Cursor} {Q : α → Cursor → Prop} (h : p.Yields c Q)
    (hq : q ⟨c, false⟩ = p ⟨c, false⟩) : q.Yields c Q := by
  unfold Yields
  rw [hq]
  exact h

@[simp] theorem yields_pure (a : α) (c : Cursor) (Q : α → Cursor → Prop) :
    (pure a : Parser α).Yields c Q ↔ Q a c := by
  refine ⟨fun h => (h rfl).2, fun h _ => ⟨rfl, h⟩⟩

theorem eq_of_not_recovering {s : ParseState} (h : s.recovering = false) :
    s = ⟨s.cursor, false⟩ := by
  rw [← h]

theorem Yields.bind {p : Parser α} {f : α → Parser β} {c : Cursor} {Q : β → Cursor → Prop}
    (h : p.Yields c fun a c' => (f a).Yields c' Q) : (p >>= f).Yields c Q := by
  intro hd
  obtain ⟨hp, hf⟩ := List.append_eq_nil_iff.mp hd
  obtain ⟨hr, hq⟩ := h hp
  have hs := eq_of_not_recovering hr
  change (f _ (p ⟨c, false⟩).state).diagnostics = [] at hf
  rw [hs] at hf
  have hfq := hq hf
  change (f _ (p ⟨c, false⟩).state).state.recovering = false ∧
    Q (f _ (p ⟨c, false⟩).state).value (f _ (p ⟨c, false⟩).state).state.cursor
  rw [hs]
  exact hfq

/-- A call of a parser with a known specification, and what is done with its answer. -/
theorem Yields.seq {p : Parser α} {f : α → Parser β} {c : Cursor} {P : α → Cursor → Prop}
    {Q : β → Cursor → Prop} (h : p.Yields c P)
    (hf : ∀ a c', P a c' → (f a).Yields c' Q) : (p >>= f).Yields c Q :=
  (h.mono hf).bind

@[simp] theorem yields_peek_bind (f : Token → Parser β) (c : Cursor) (Q : β → Cursor → Prop) :
    (peek >>= f).Yields c Q ↔ (f c.peek).Yields c Q := Iff.rfl

@[simp] theorem yields_peekKind_bind (f : TokenKind → Parser β) (c : Cursor)
    (Q : β → Cursor → Prop) : (peekKind >>= f).Yields c Q ↔ (f c.peek.kind).Yields c Q := Iff.rfl

@[simp] theorem yields_atKeyword_bind (keyword : String) (f : Bool → Parser β) (c : Cursor)
    (Q : β → Cursor → Prop) :
    (atKeyword keyword >>= f).Yields c Q ↔ (f (c.peek.isKeyword keyword)).Yields c Q := Iff.rfl

@[simp] theorem yields_read_bind (f : Token → Parser β) (c : Cursor) (Q : β → Cursor → Prop) :
    (read >>= f).Yields c Q ↔ (f c.peek).Yields c.advance Q := Iff.rfl

@[simp] theorem yields_skip_bind (f : Unit → Parser β) (c : Cursor) (Q : β → Cursor → Prop) :
    (skip >>= f).Yields c Q ↔ (f ()).Yields c.advance Q := Iff.rfl

@[simp] theorem yields_skip (c : Cursor) (Q : Unit → Cursor → Prop) :
    skip.Yields c Q ↔ Q () c.advance := by
  refine ⟨fun h => (h rfl).2, fun h _ => ⟨rfl, h⟩⟩

@[simp] theorem yields_previousRange (c : Cursor) (Q : SourceRange → Cursor → Prop) :
    previousRange.Yields c Q ↔ Q c.previousRange c := by
  refine ⟨fun h => (h rfl).2, fun h _ => ⟨rfl, h⟩⟩

@[simp] theorem yields_previousRange_bind (f : SourceRange → Parser β) (c : Cursor)
    (Q : β → Cursor → Prop) :
    (previousRange >>= f).Yields c Q ↔ (f c.previousRange).Yields c Q := Iff.rfl

@[simp] theorem yields_recovering_bind (f : Bool → Parser β) (c : Cursor)
    (Q : β → Cursor → Prop) : (recovering >>= f).Yields c Q ↔ (f false).Yields c Q := Iff.rfl

theorem yields_withNewlines (newlines : Bool) (p : Parser α) (c : Cursor)
    (Q : α → Cursor → Prop) :
    (withNewlines newlines p).Yields c Q ↔
      p.Yields (c.enter newlines) fun a c' => Q a c'.leave := Iff.rfl

@[simp] theorem yields_report_bind (p : Problem) (r : SourceRange) (x : Option SourceRange)
    (f : Unit → Parser β) (c : Cursor) (Q : β → Cursor → Prop) :
    (report p r x >>= f).Yields c Q := by
  intro hd
  exact absurd hd (List.cons_ne_nil _ _)

@[simp] theorem yields_reportFirst_bind (p : Problem) (r : SourceRange) (x : Option SourceRange)
    (f : Unit → Parser β) (c : Cursor) (Q : β → Cursor → Prop) :
    (reportFirst p r x >>= f).Yields c Q := by
  intro hd
  exact absurd hd (List.cons_ne_nil _ _)

@[simp] theorem yields_report (p : Problem) (r : SourceRange) (x : Option SourceRange)
    (c : Cursor) (Q : Unit → Cursor → Prop) : (report p r x).Yields c Q := by
  intro hd
  exact absurd hd (List.cons_ne_nil _ _)

@[simp] theorem yields_reportFirst (p : Problem) (r : SourceRange) (x : Option SourceRange)
    (c : Cursor) (Q : Unit → Cursor → Prop) : (reportFirst p r x).Yields c Q := by
  intro hd
  exact absurd hd (List.cons_ne_nil _ _)

@[simp] theorem yields_invalid (c : Cursor) (Q : Expr → Cursor → Prop) : invalid.Yields c Q := by
  intro hd
  exact absurd hd (List.cons_ne_nil _ _)

@[simp] theorem yields_invalid_bind (f : Expr → Parser β) (c : Cursor) (Q : β → Cursor → Prop) :
    (invalid >>= f).Yields c Q := Yields.bind (yields_invalid c _)

/-- A report counts also after a recovery. -/
theorem yields_skipItem_report_bind (p : Problem) (r : SourceRange) (x : Option SourceRange)
    (f : Unit → Parser β) (c : Cursor) (Q : β → Cursor → Prop) :
    (skipItem >>= fun _ => report p r x >>= f).Yields c Q := by
  intro hd
  exact absurd (List.append_eq_nil_iff.mp hd).2 (List.cons_ne_nil _ _)

theorem yields_tell_bind (ds : List Diagnostic) (f : Unit → Parser β) (c : Cursor)
    (Q : β → Cursor → Prop) : (tell ds >>= f).Yields c Q ↔ (ds = [] → (f ()).Yields c Q) := by
  constructor
  · rintro h rfl
    exact h
  · intro h hd
    obtain rfl := (List.append_eq_nil_iff.mp hd).1
    exact h rfl hd

theorem yields_observe {p : Parser α} {c : Cursor} {Q : α × Bool → Cursor → Prop}
    (h : p.Yields c fun a c' => Q (a, false) c') : (observe p).Yields c Q := by
  intro hd
  change (p ⟨c, false⟩).diagnostics = [] at hd
  obtain ⟨hr, hq⟩ := h hd
  refine ⟨hr, ?_⟩
  change Q ((p ⟨c, false⟩).value, !(p ⟨c, false⟩).diagnostics.isEmpty) _
  rw [hd]
  exact hq

theorem yields_track {p : Parser α} {c : Cursor} {Q : α × Bool → Cursor → Prop}
    (h : p.Yields c fun a c' => Q (a, false) c') : (track p).Yields c Q := by
  apply Yields.bind
  apply yields_observe
  refine h.mono fun a c' hq => ?_
  simpa using hq

theorem Yields.observe_seq {p : Parser α} {f : α × Bool → Parser β} {c : Cursor}
    {P : α → Cursor → Prop} {Q : β → Cursor → Prop} (h : p.Yields c P)
    (hf : ∀ a c', P a c' → (f (a, false)).Yields c' Q) : (observe p >>= f).Yields c Q :=
  Yields.bind (yields_observe (h.mono hf))

theorem Yields.track_seq {p : Parser α} {f : α × Bool → Parser β} {c : Cursor}
    {P : α → Cursor → Prop} {Q : β → Cursor → Prop} (h : p.Yields c P)
    (hf : ∀ a c', P a c' → (f (a, false)).Yields c' Q) : (track p >>= f).Yields c Q :=
  Yields.bind (yields_track (h.mono hf))

theorem Yields.iterateFor {step : σ → Parser (σ × Bool)} {I Q : σ → Cursor → Prop}
    (hstep : ∀ a c, I a c →
      (step a).Yields c fun r c' => if r.2 then I r.1 c' else Q r.1 c')
    (n : Nat) {a : σ} {c : Cursor} (h : I a c) : (iterateFor step n a).Yields c Q := by
  induction n generalizing a c with
  | zero => exact yields_invalid_bind _ _ _
  | succ n ih =>
    refine (hstep a c h).seq fun r c' hr => ?_
    obtain ⟨b, more⟩ := r
    cases more with
    | true => exact ih hr
    | false => simpa using hr

theorem Yields.iterate {step : σ → Parser (σ × Bool)} {I Q : σ → Cursor → Prop}
    (hstep : ∀ a c, I a c →
      (step a).Yields c fun r c' => if r.2 then I r.1 c' else Q r.1 c')
    {a : σ} {c : Cursor} (h : I a c) : (iterate step a).Yields c Q :=
  Yields.iterateFor hstep (c.remaining + 1) h

-- The rules above are all that is known of a silent run from here on.
attribute [irreducible] Yields

end HclSyntax.Parser
