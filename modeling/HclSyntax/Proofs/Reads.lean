import HclSyntax.Parser.Resync

namespace HclSyntax.Parser

variable {α β σ : Type}

/-- From `c` on `p` answers `a` and stops at `c'`, with no report and no recovery. -/
def Reads (p : Parser α) (c : Cursor) (a : α) (c' : Cursor) : Prop :=
  p ⟨c, false⟩ = ⟨a, [], c', false⟩

@[simp] theorem reads_pure {a b : α} {c c' : Cursor} :
    (pure a : Parser α).Reads c b c' ↔ a = b ∧ c = c' := by
  constructor
  · intro h
    simpa only [Parsed.mk.injEq, ParseState.mk.injEq, and_true, true_and] using
      show (⟨a, [], c, false⟩ : Parsed α) = _ from h
  · rintro ⟨rfl, rfl⟩
    rfl

/-- From `c` on `p` answers `a`, reports `ds` and stops at `c'`, with no recovery. -/
def Reports (p : Parser α) (c : Cursor) (a : α) (ds : List Diagnostic) (c' : Cursor) : Prop :=
  p ⟨c, false⟩ = ⟨a, ds, c', false⟩

theorem Reads.reports {p : Parser α} {c c' : Cursor} {a : α} (h : p.Reads c a c') :
    p.Reports c a [] c' := h

theorem reports_pure {a : α} {c : Cursor} : (pure a : Parser α).Reports c a [] c := rfl

theorem Reports.bind {p : Parser α} {f : α → Parser β} {c c₁ c₂ : Cursor} {a : α} {b : β}
    {ds ds' : List Diagnostic} (h : p.Reports c a ds c₁) (hf : (f a).Reports c₁ b ds' c₂) :
    (p >>= f).Reports c b (ds ++ ds') c₂ := by
  change (⟨(f (p ⟨c, false⟩).value (p ⟨c, false⟩).state).value,
    (p ⟨c, false⟩).diagnostics ++ (f (p ⟨c, false⟩).value (p ⟨c, false⟩).state).diagnostics,
    (f (p ⟨c, false⟩).value (p ⟨c, false⟩).state).state⟩ : Parsed β) = _
  rw [h]
  change (⟨(f a ⟨c₁, false⟩).value, ds ++ (f a ⟨c₁, false⟩).diagnostics,
    (f a ⟨c₁, false⟩).state⟩ : Parsed β) = _
  rw [hf]

theorem Reads.bind_reports {p : Parser α} {f : α → Parser β} {c c₁ c₂ : Cursor} {a : α} {b : β}
    {ds : List Diagnostic} (h : p.Reads c a c₁) (hf : (f a).Reports c₁ b ds c₂) :
    (p >>= f).Reports c b ds c₂ := Reports.bind h hf

theorem Reports.bind_reads {p : Parser α} {f : α → Parser β} {c c₁ c₂ : Cursor} {a : α} {b : β}
    {ds : List Diagnostic} (h : p.Reports c a ds c₁) (hf : (f a).Reads c₁ b c₂) :
    (p >>= f).Reports c b ds c₂ := by
  rw [← List.append_nil ds]
  exact h.bind hf

theorem Reports.map {p : Parser α} {f : α → β} {c c' : Cursor} {a : α} {ds : List Diagnostic}
    (h : p.Reports c a ds c') : (p >>= fun a => pure (f a)).Reports c (f a) ds c' :=
  h.bind_reads (reads_pure.mpr ⟨rfl, rfl⟩)

theorem reports_peek_bind {f : Token → Parser β} {c c' : Cursor} {b : β} {ds : List Diagnostic} :
    (peek >>= f).Reports c b ds c' ↔ (f c.peek).Reports c b ds c' := Iff.rfl

theorem reports_peekKind_bind {f : TokenKind → Parser β} {c c' : Cursor} {b : β}
    {ds : List Diagnostic} :
    (peekKind >>= f).Reports c b ds c' ↔ (f c.peek.kind).Reports c b ds c' := Iff.rfl

theorem reports_skip_bind {f : Unit → Parser β} {c c' : Cursor} {b : β} {ds : List Diagnostic} :
    (skip >>= f).Reports c b ds c' ↔ (f ()).Reports c.advance b ds c' := Iff.rfl

theorem reports_previousRange_bind {f : SourceRange → Parser β} {c c' : Cursor} {b : β}
    {ds : List Diagnostic} : (previousRange >>= f).Reports c b ds c' ↔
      (f c.previousRange).Reports c b ds c' := Iff.rfl

theorem Reads.bind {p : Parser α} {f : α → Parser β} {c c₁ c₂ : Cursor} {a : α} {b : β}
    (h : p.Reads c a c₁) (hf : (f a).Reads c₁ b c₂) : (p >>= f).Reads c b c₂ := Reports.bind h hf

@[simp] theorem reads_peek_bind {f : Token → Parser β} {c c' : Cursor} {b : β} :
    (peek >>= f).Reads c b c' ↔ (f c.peek).Reads c b c' := Iff.rfl

@[simp] theorem reads_peekKind_bind {f : TokenKind → Parser β} {c c' : Cursor} {b : β} :
    (peekKind >>= f).Reads c b c' ↔ (f c.peek.kind).Reads c b c' := Iff.rfl

@[simp] theorem reads_atKeyword_bind {keyword : String} {f : Bool → Parser β} {c c' : Cursor}
    {b : β} : (atKeyword keyword >>= f).Reads c b c' ↔
      (f (c.peek.isKeyword keyword)).Reads c b c' := Iff.rfl

@[simp] theorem reads_read_bind {f : Token → Parser β} {c c' : Cursor} {b : β} :
    (read >>= f).Reads c b c' ↔ (f c.peek).Reads c.advance b c' := Iff.rfl

@[simp] theorem reads_skip_bind {f : Unit → Parser β} {c c' : Cursor} {b : β} :
    (skip >>= f).Reads c b c' ↔ (f ()).Reads c.advance b c' := Iff.rfl

@[simp] theorem reads_skip {c c' : Cursor} {u : Unit} :
    skip.Reads c u c' ↔ c.advance = c' := by
  constructor
  · intro h
    exact congrArg (fun r => r.state.cursor) h
  · rintro rfl
    rfl

@[simp] theorem reads_previousRange_bind {f : SourceRange → Parser β} {c c' : Cursor} {b : β} :
    (previousRange >>= f).Reads c b c' ↔ (f c.previousRange).Reads c b c' := Iff.rfl

@[simp] theorem reads_recovering_bind {f : Bool → Parser β} {c c' : Cursor} {b : β} :
    (recovering >>= f).Reads c b c' ↔ (f false).Reads c b c' := Iff.rfl

@[simp] theorem reads_tell_nil_bind {f : Unit → Parser β} {c c' : Cursor} {b : β} :
    (tell [] >>= f).Reads c b c' ↔ (f ()).Reads c b c' := Iff.rfl

theorem Reads.withNewlines {p : Parser α} {c c' : Cursor} {a : α} {newlines : Bool}
    (h : p.Reads (c.enter newlines) a c') : (withNewlines newlines p).Reads c a c'.leave := by
  change { p ⟨c.enter newlines, false⟩ with
    state := { (p ⟨c.enter newlines, false⟩).state with
      cursor := (p ⟨c.enter newlines, false⟩).state.cursor.leave } } = _
  rw [h]

theorem Reads.observe {p : Parser α} {c c' : Cursor} {a : α} (h : p.Reads c a c') :
    (observe p).Reads c (a, false) c' := by
  change (⟨((p ⟨c, false⟩).value, !(p ⟨c, false⟩).diagnostics.isEmpty),
    (p ⟨c, false⟩).diagnostics, (p ⟨c, false⟩).state⟩ : Parsed (α × Bool)) = _
  rw [h]
  rfl

theorem Reads.observe_bind {p : Parser α} {f : α × Bool → Parser β} {c c₁ c₂ : Cursor} {a : α}
    {b : β} (h : p.Reads c a c₁) (hf : (f (a, false)).Reads c₁ b c₂) :
    (Parser.observe p >>= f).Reads c b c₂ := h.observe.bind hf

theorem Reads.track_bind {p : Parser α} {f : α × Bool → Parser β} {c c₁ c₂ : Cursor} {a : α}
    {b : β} (h : p.Reads c a c₁) (hf : (f (a, false)).Reads c₁ b c₂) :
    (track p >>= f).Reads c b c₂ := by
  refine Reads.bind (a := (a, false)) ?_ hf
  exact h.observe_bind ((reads_recovering_bind).mpr (reads_pure.mpr ⟨rfl, rfl⟩))

/-- Only what a parser does from `c` on matters. -/
theorem Reads.congr {p q : Parser α} {c c' : Cursor} {a : α} (h : p.Reads c a c')
    (hq : q ⟨c, false⟩ = p ⟨c, false⟩) : q.Reads c a c' := hq.trans h

/-- Steps that ask for more and pass a token each lead from `a` at `c` to `b` at `c'`. -/
inductive Leads (step : σ → Parser (σ × Bool)) (a : σ) (c : Cursor) : σ → Cursor → Prop
  | refl : Leads step a c a c
  | step {b b' : σ} {c' c'' : Cursor} (h : Leads step a c b c')
    (hs : (step b).Reads c' (b', true) c'') (hlt : c''.remaining < c'.remaining) :
    Leads step a c b' c''

/-- A step that asks for more takes one from the bound, and at least one from the tokens. -/
theorem Leads.iterateFor {step : σ → Parser (σ × Bool)} {a b : σ} {c c' : Cursor}
    (h : Leads step a c b c') : ∃ k, k + c'.remaining ≤ c.remaining ∧ ∀ m r c'',
      (Parser.iterateFor step m b).Reads c' r c'' →
        (Parser.iterateFor step (k + m) a).Reads c r c'' := by
  induction h with
  | refl => exact ⟨0, by omega, fun m r c'' h => by rwa [Nat.zero_add]⟩
  | @step b b' c' c'' _ hs hlt ih =>
    obtain ⟨k, hk, hreads⟩ := ih
    refine ⟨k + 1, by omega, fun m r c₂ h => ?_⟩
    have hm : (Parser.iterateFor step (m + 1) b).Reads c' r c₂ := by
      refine hs.bind ?_
      simpa using h
    have := hreads (m + 1) r c₂ hm
    rwa [show k + 1 + m = k + (m + 1) by omega]

/-- A repetition whose steps lead to a last one. -/
theorem Leads.iterate {step : σ → Parser (σ × Bool)} {a b r : σ} {c c' c'' : Cursor}
    (h : Leads step a c b c') (hs : (step b).Reads c' (r, false) c'') :
    (iterate step a).Reads c r c'' := by
  obtain ⟨k, hk, hreads⟩ := h.iterateFor
  obtain ⟨m, hm⟩ : ∃ m, c.remaining + 1 = k + (m + 1) := ⟨c.remaining - k, by omega⟩
  have hlast : (Parser.iterateFor step (m + 1) b).Reads c' r c'' :=
    hs.bind (reads_pure.mpr ⟨rfl, rfl⟩)
  have hall := hreads (m + 1) r c'' hlast
  rw [← hm] at hall
  exact hall

/-- All answers of the parser have the property. -/
def Answers (p : Parser α) (Q : α → Prop) : Prop := ∀ s, Q (p s).value

theorem answers_pure {a : α} {Q : α → Prop} (h : Q a) : (pure a : Parser α).Answers Q :=
  fun _ => h

theorem Answers.seq {p : Parser α} {f : α → Parser β} {P : α → Prop} {Q : β → Prop}
    (h : p.Answers P) (hf : ∀ a, P a → (f a).Answers Q) : (p >>= f).Answers Q :=
  fun s => hf _ (h s) _

theorem answers_bind {p : Parser α} {f : α → Parser β} {Q : β → Prop}
    (hf : ∀ a, (f a).Answers Q) : (p >>= f).Answers Q := fun _ => hf _ _

theorem Answers.iterate {step : σ → Parser (σ × Bool)} {Q : σ → Prop}
    (h : ∀ a, Q a → (step a).Answers (Q ·.1)) {a : σ} (ha : Q a) :
    (Parser.iterate step a).Answers Q := by
  suffices hn : ∀ n, (Parser.iterateFor step n a).Answers Q from fun s => hn _ s
  intro n
  induction n generalizing a with
  | zero => exact answers_bind fun _ => answers_pure ha
  | succ n ih =>
    refine (h a ha).seq fun r hr => ?_
    obtain ⟨b, more⟩ := r
    cases more with
    | true => exact ih hr
    | false => exact answers_pure hr

end HclSyntax.Parser
