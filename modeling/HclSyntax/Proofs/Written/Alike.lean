import HclSyntax.Proofs.Reads
import HclSyntax.Proofs.Written.Shelter

namespace HclSyntax.Parser

variable {α β σ : Type} {x : Surroundings} {c : Cursor}

/-- If `p` reports nothing from `c` on, `p'` does the same in the body, and `Q` holds where `p`
stops. -/
def Alike (p : Parser α) (x : Surroundings) (p' : Parser α) (c : Cursor)
    (Q : α → Cursor → Prop) : Prop :=
  (p ⟨c, false⟩).diagnostics = [] →
    ∃ a c', p.Reads c a c' ∧ p'.Reads (c.inBody x) a (c'.inBody x) ∧ Q a c'

theorem Alike.mono {p p' : Parser α} {Q Q' : α → Cursor → Prop} (h : p.Alike x p' c Q)
    (hQ : ∀ a c', Q a c' → Q' a c') : p.Alike x p' c Q' := by
  intro hd
  obtain ⟨a, c', hr, hr', hq⟩ := h hd
  exact ⟨a, c', hr, hr', hQ a c' hq⟩

/-- Only what the parsers do from `c` on matters. -/
theorem Alike.congr {p p' q q' : Parser α} {Q : α → Cursor → Prop} (h : p.Alike x p' c Q)
    (hq : q ⟨c, false⟩ = p ⟨c, false⟩) (hq' : q' ⟨c.inBody x, false⟩ = p' ⟨c.inBody x, false⟩) :
    q.Alike x q' c Q := by
  intro hd
  rw [hq] at hd
  obtain ⟨a, c', hr, hr', hQ⟩ := h hd
  exact ⟨a, c', hr.congr hq, hr'.congr hq', hQ⟩

theorem alike_pure {a : α} {Q : α → Cursor → Prop} (h : Q a c) :
    (pure a : Parser α).Alike x (pure a) c Q := fun _ => ⟨a, c, rfl, rfl, h⟩

theorem Alike.bind {p p' : Parser α} {f f' : α → Parser β} {Q : β → Cursor → Prop}
    (h : p.Alike x p' c fun a c' => (f a).Alike x (f' a) c' Q) :
    (p >>= f).Alike x (p' >>= f') c Q := by
  intro hd
  obtain ⟨hp, hf⟩ := List.append_eq_nil_iff.mp hd
  obtain ⟨a, c', hr, hr', hrest⟩ := h hp
  rw [hr] at hf
  obtain ⟨b, c'', hs, hs', hq⟩ := hrest hf
  exact ⟨b, c'', hr.bind hs, hr'.bind hs', hq⟩

/-- A call of parsers with a known specification, and what is done with their answer. -/
theorem Alike.seq {p p' : Parser α} {f f' : α → Parser β} {P : α → Cursor → Prop}
    {Q : β → Cursor → Prop} (h : p.Alike x p' c P)
    (hf : ∀ a c', P a c' → (f a).Alike x (f' a) c' Q) : (p >>= f).Alike x (p' >>= f') c Q :=
  (h.mono hf).bind

section
variable (hs : c.Same x) {Q : β → Cursor → Prop}
include hs

theorem alike_peek_bind {f f' : Token → Parser β} (hf : (f c.peek).Alike x (f' c.peek) c Q) :
    (peek >>= f).Alike x (peek >>= f') c Q := by
  intro hd
  obtain ⟨a, c', hr, hr', hq⟩ := hf hd
  rw [← hs.peek] at hr'
  exact ⟨a, c', hr, hr', hq⟩

theorem alike_peekKind_bind {f f' : TokenKind → Parser β}
    (hf : (f c.peek.kind).Alike x (f' c.peek.kind) c Q) :
    (peekKind >>= f).Alike x (peekKind >>= f') c Q := by
  intro hd
  obtain ⟨a, c', hr, hr', hq⟩ := hf hd
  rw [← hs.peek] at hr'
  exact ⟨a, c', hr, hr', hq⟩

theorem alike_atKeyword_bind {keyword : String} {f f' : Bool → Parser β}
    (hf : (f (c.peek.isKeyword keyword)).Alike x (f' (c.peek.isKeyword keyword)) c Q) :
    (atKeyword keyword >>= f).Alike x (atKeyword keyword >>= f') c Q := by
  intro hd
  obtain ⟨a, c', hr, hr', hq⟩ := hf hd
  rw [← hs.peek] at hr'
  exact ⟨a, c', hr, hr', hq⟩

theorem alike_skip_bind {f f' : Unit → Parser β} (hf : (f ()).Alike x (f' ()) c.advance Q) :
    (skip >>= f).Alike x (skip >>= f') c Q := by
  intro hd
  obtain ⟨a, c', hr, hr', hq⟩ := hf hd
  rw [← hs.advance] at hr'
  exact ⟨a, c', hr, hr', hq⟩

theorem alike_read_bind {f f' : Token → Parser β}
    (hf : (f c.peek).Alike x (f' c.peek) c.advance Q) :
    (read >>= f).Alike x (read >>= f') c Q := by
  intro hd
  obtain ⟨a, c', hr, hr', hq⟩ := hf hd
  rw [← hs.peek, ← hs.advance] at hr'
  exact ⟨a, c', hr, hr', hq⟩

omit Q in
theorem alike_skip {Q : Unit → Cursor → Prop} (hq : Q () c.advance) : skip.Alike x skip c Q :=
  fun _ => ⟨(), c.advance, rfl, by rw [reads_skip, hs.advance], hq⟩

end

section
variable {modes : List Bool} {opened : List Bracket} {m : Nat}

theorem alike_previousRange_bind (h : c.InValue true modes opened m)
    {f f' : SourceRange → Parser β} {Q : β → Cursor → Prop}
    (hf : (f c.previousRange).Alike x (f' c.previousRange) c Q) :
    (previousRange >>= f).Alike x (previousRange >>= f') c Q := by
  intro hd
  obtain ⟨a, c', hr, hr', hq⟩ := hf hd
  rw [← h.previousRange_inBody (x := x)] at hr'
  exact ⟨a, c', hr, hr', hq⟩

theorem alike_previousRange (h : c.InValue true modes opened m) {Q : SourceRange → Cursor → Prop}
    (hq : Q c.previousRange c) : previousRange.Alike x previousRange c Q := by
  refine fun _ => ⟨c.previousRange, c, rfl, ?_, hq⟩
  rw [← h.previousRange_inBody (x := x)]
  rfl

/-- Inside of the mode the place is in the value, so that the body is there when it is left. -/
theorem alike_withNewlines {begun : Bool} (h : c.InValue begun modes opened m)
    {p p' : Parser α} {newlines : Bool} {Q : α → Cursor → Prop}
    (hp : p.Alike x p' (c.enter newlines) fun a c' =>
      (c'.inBody x).leave = c'.leave.inBody x ∧ Q a c'.leave) :
    (withNewlines newlines p).Alike x (withNewlines newlines p') c Q := by
  intro hd
  obtain ⟨a, c', hr, hr', hleave, hq⟩ := hp hd
  rw [← h.enter_inBody] at hr'
  exact ⟨a, c'.leave, hr.withNewlines, hleave ▸ hr'.withNewlines, hq⟩

end

theorem alike_report_bind {p : Problem} {r : SourceRange} {o : Option SourceRange}
    {f : Unit → Parser β} {p' : Parser β} {Q : β → Cursor → Prop} :
    (report p r o >>= f).Alike x p' c Q := fun hd => absurd hd (List.cons_ne_nil _ _)

theorem alike_reportFirst_bind {p : Problem} {r : SourceRange} {o : Option SourceRange}
    {f : Unit → Parser β} {p' : Parser β} {Q : β → Cursor → Prop} :
    (reportFirst p r o >>= f).Alike x p' c Q := fun hd => absurd hd (List.cons_ne_nil _ _)

theorem alike_report {p : Problem} {r : SourceRange} {o : Option SourceRange}
    {p' : Parser Unit} {Q : Unit → Cursor → Prop} : (report p r o).Alike x p' c Q :=
  fun hd => absurd hd (List.cons_ne_nil _ _)

theorem alike_invalid {p' : Parser Expr} {Q : Expr → Cursor → Prop} : invalid.Alike x p' c Q :=
  fun hd => absurd hd (List.cons_ne_nil _ _)

/-- Where a look at the end is a mistake, nothing is said. -/
theorem alike_peek_end {f : Token → Parser β} {p' : Parser β} {Q : β → Cursor → Prop}
    (hf : (f c.peek).Alike x p' c Q) : (peek >>= f).Alike x p' c Q := hf

theorem alike_recovering_bind {f f' : Bool → Parser β} {Q : β → Cursor → Prop}
    (hf : (f false).Alike x (f' false) c Q) :
    (recovering >>= f).Alike x (recovering >>= f') c Q := by
  intro hd
  obtain ⟨a, c', hr, hr', hq⟩ := hf hd
  exact ⟨a, c', hr, hr', hq⟩

theorem alike_tell_bind {ds : List Diagnostic} {f f' : Unit → Parser β} {Q : β → Cursor → Prop}
    (hf : (f ()).Alike x (f' ()) c Q) : (tell ds >>= f).Alike x (tell ds >>= f') c Q := by
  intro hd
  obtain ⟨rfl, hrest⟩ := List.append_eq_nil_iff.mp hd
  obtain ⟨a, c', hr, hr', hq⟩ := hf hrest
  exact ⟨a, c', hr, hr', hq⟩

theorem Alike.observe {p p' : Parser α} {P : α → Cursor → Prop} (h : p.Alike x p' c P) :
    (observe p).Alike x (observe p') c fun r c' => P r.1 c' ∧ r.2 = false := by
  intro hd
  obtain ⟨a, c', hr, hr', hP⟩ := h hd
  exact ⟨(a, false), c', hr.observe, hr'.observe, hP, rfl⟩

theorem Alike.observe_seq {p p' : Parser α} {f f' : α × Bool → Parser β} {P : α → Cursor → Prop}
    {Q : β → Cursor → Prop} (h : p.Alike x p' c P)
    (hf : ∀ a c', P a c' → (f (a, false)).Alike x (f' (a, false)) c' Q) :
    (Parser.observe p >>= f).Alike x (Parser.observe p' >>= f') c Q := by
  refine h.observe.seq fun r c' hr => ?_
  obtain ⟨a, reported⟩ := r
  obtain ⟨hP, rfl⟩ := hr
  exact hf a c' hP

theorem Alike.track {p p' : Parser α} {P : α → Cursor → Prop} (h : p.Alike x p' c P) :
    (track p).Alike x (track p') c fun r c' => P r.1 c' ∧ r.2 = false :=
  h.observe_seq fun _ _ hP => alike_recovering_bind (alike_pure ⟨hP, rfl⟩)

theorem Alike.track_seq {p p' : Parser α} {f f' : α × Bool → Parser β} {P : α → Cursor → Prop}
    {Q : β → Cursor → Prop} (h : p.Alike x p' c P)
    (hf : ∀ a c', P a c' → (f (a, false)).Alike x (f' (a, false)) c' Q) :
    (Parser.track p >>= f).Alike x (Parser.track p' >>= f') c Q := by
  refine h.track.seq fun r c' hr => ?_
  obtain ⟨a, lost⟩ := r
  obtain ⟨hP, rfl⟩ := hr
  exact hf a c' hP

/-- What comes after a run that always reports does not matter. -/
theorem Alike.never_bind {p p' : Parser α} {f : α → Parser β} {q : Parser β}
    {P : α → Cursor → Prop} {Q : β → Cursor → Prop} (h : p.Alike x p' c P)
    (hP : ∀ a c', ¬ P a c') : (p >>= f).Alike x q c Q := by
  intro hd
  obtain ⟨hp, -⟩ := List.append_eq_nil_iff.mp hd
  obtain ⟨a, c', -, -, ha⟩ := h hp
  exact absurd ha (hP a c')

theorem Alike.iterateFor {step step' : σ → Parser (σ × Bool)} {I : Nat → σ → Cursor → Prop}
    {Q : σ → Cursor → Prop} (hstep : ∀ m a c, I m a c → (step a).Alike x (step' a) c fun r c' =>
      if r.2 then ∃ j < m, I j r.1 c' else Q r.1 c') (m : Nat) :
    ∀ n n' a c, m < n → m < n' → I m a c →
      (iterateFor step n a).Alike x (iterateFor step' n' a) c Q := by
  induction m using Nat.strongRecOn with
  | ind m ih =>
    intro n n' a c hn hn' ha
    obtain ⟨n, rfl⟩ : ∃ k, n = k + 1 := ⟨n - 1, by omega⟩
    obtain ⟨n', rfl⟩ : ∃ k, n' = k + 1 := ⟨n' - 1, by omega⟩
    refine (hstep m a c ha).seq fun r c' hr => ?_
    obtain ⟨a', more⟩ := r
    cases more with
    | true =>
      obtain ⟨j, hj, ha'⟩ : ∃ j < m, I j a' c' := by simpa using hr
      exact ih j hj n n' a' c' (by omega) (by omega) ha'
    | false => exact alike_pure (by simpa using hr)

end HclSyntax.Parser
