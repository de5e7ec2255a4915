import Mathlib
import HclSyntax.Parser.Basic
import HclSyntax.Proofs.Line.Brackets

namespace HclSyntax

def Parsed.widen {α : Type} (r : Parsed α) (x : Surroundings) : Parsed α :=
  ⟨r.value, r.diagnostics, ⟨r.state.cursor.widen x, r.state.recovering⟩⟩

namespace Parser

variable {α β σ : Type} {x : Surroundings} {c : Cursor}

/-- From `c` on `p` stops where `Q` holds, and `p'` does the same in the surroundings `x`. -/
def Agrees (p : Parser α) (x : Surroundings) (p' : Parser α) (c : Cursor)
    (Q : α → Cursor → Prop) : Prop :=
  ∀ b, p' ⟨c.widen x, b⟩ = (p ⟨c, b⟩).widen x ∧ Q (p ⟨c, b⟩).value (p ⟨c, b⟩).state.cursor

theorem agrees_iff {p p' : Parser α} {Q : α → Cursor → Prop} : p.Agrees x p' c Q ↔
    ∀ b, p' ⟨c.widen x, b⟩ = (p ⟨c, b⟩).widen x ∧
      Q (p ⟨c, b⟩).value (p ⟨c, b⟩).state.cursor := Iff.rfl

theorem Agrees.mono {p p' : Parser α} {Q Q' : α → Cursor → Prop} (h : p.Agrees x p' c Q)
    (hQ : ∀ a c', Q a c' → Q' a c') : p.Agrees x p' c Q' :=
  fun b => ⟨(h b).1, hQ _ _ (h b).2⟩

/-- Only what the parsers do from `c` on matters. -/
theorem Agrees.congr {p p' q q' : Parser α} {Q : α → Cursor → Prop} (h : p.Agrees x p' c Q)
    (hq : ∀ b, q ⟨c, b⟩ = p ⟨c, b⟩) (hq' : ∀ b, q' ⟨c.widen x, b⟩ = p' ⟨c.widen x, b⟩) :
    q.Agrees x q' c Q := by
  intro b
  rw [hq, hq']
  exact h b

theorem agrees_pure {a : α} {Q : α → Cursor → Prop} (h : Q a c) :
    (pure a : Parser α).Agrees x (pure a) c Q := fun _ => ⟨rfl, h⟩

theorem Agrees.bind {p p' : Parser α} {f f' : α → Parser β} {Q : β → Cursor → Prop}
    (h : p.Agrees x p' c fun a c' => (f a).Agrees x (f' a) c' Q) :
    (p >>= f).Agrees x (p' >>= f') c Q := by
  intro b
  obtain ⟨he, hq⟩ := h b
  obtain ⟨he', hq'⟩ := hq (p ⟨c, b⟩).state.recovering
  refine ⟨?_, hq'⟩
  change (⟨(f' (p' ⟨c.widen x, b⟩).value (p' ⟨c.widen x, b⟩).state).value,
    (p' ⟨c.widen x, b⟩).diagnostics ++
      (f' (p' ⟨c.widen x, b⟩).value (p' ⟨c.widen x, b⟩).state).diagnostics,
    (f' (p' ⟨c.widen x, b⟩).value (p' ⟨c.widen x, b⟩).state).state⟩ : Parsed β) = _
  rw [he]
  change (⟨(f' (p ⟨c, b⟩).value ⟨(p ⟨c, b⟩).state.cursor.widen x, _⟩).value,
    (p ⟨c, b⟩).diagnostics ++
      (f' (p ⟨c, b⟩).value ⟨(p ⟨c, b⟩).state.cursor.widen x, _⟩).diagnostics,
    (f' (p ⟨c, b⟩).value ⟨(p ⟨c, b⟩).state.cursor.widen x, _⟩).state⟩ : Parsed β) = _
  rw [he']
  rfl

/-- A call of parsers with a known specification, and what is done with their answer. -/
theorem Agrees.seq {p p' : Parser α} {f f' : α → Parser β} {P : α → Cursor → Prop}
    {Q : β → Cursor → Prop} (h : p.Agrees x p' c P)
    (hf : ∀ a c', P a c' → (f a).Agrees x (f' a) c' Q) : (p >>= f).Agrees x (p' >>= f') c Q :=
  (h.mono hf).bind

section reading

variable {modes : List Bool} {closers : List TokenKind} {m : Nat}
  (h : c.Within modes closers m) (hs : Cursor.Clear modes closers)
include h

theorem agrees_previousRange_bind {f f' : SourceRange → Parser β} {Q : β → Cursor → Prop}
    (hf : (f c.previousRange).Agrees x (f' c.previousRange) c Q) :
    (previousRange >>= f).Agrees x (previousRange >>= f') c Q := by
  intro b
  change (f' (c.widen x).previousRange ⟨c.widen x, b⟩) = _ ∧ _
  rw [h.previousRange_widen x]
  exact hf b

theorem agrees_previousRange {Q : SourceRange → Cursor → Prop} (hq : Q c.previousRange c) :
    previousRange.Agrees x previousRange c Q := by
  refine fun b => ⟨?_, hq⟩
  change (⟨(c.widen x).previousRange, [], ⟨c.widen x, b⟩⟩ : Parsed SourceRange) = _
  rw [h.previousRange_widen x]
  rfl

include hs

theorem agrees_peek_bind {f f' : Token → Parser β} {Q : β → Cursor → Prop}
    (hf : (f c.peek).Agrees x (f' c.peek) c Q) : (peek >>= f).Agrees x (peek >>= f') c Q := by
  intro b
  change (f' (c.widen x).peek ⟨c.widen x, b⟩) = _ ∧ _
  rw [h.peek_widen hs x]
  exact hf b

theorem agrees_peekKind_bind {f f' : TokenKind → Parser β} {Q : β → Cursor → Prop}
    (hf : (f c.peek.kind).Agrees x (f' c.peek.kind) c Q) :
    (peekKind >>= f).Agrees x (peekKind >>= f') c Q := by
  intro b
  change (f' (c.widen x).peek.kind ⟨c.widen x, b⟩) = _ ∧ _
  rw [h.peek_widen hs x]
  exact hf b

theorem agrees_atKeyword_bind {keyword : String} {f f' : Bool → Parser β}
    {Q : β → Cursor → Prop} (hf : (f (c.peek.isKeyword keyword)).Agrees x
      (f' (c.peek.isKeyword keyword)) c Q) :
    (atKeyword keyword >>= f).Agrees x (atKeyword keyword >>= f') c Q := by
  intro b
  change (f' ((c.widen x).peek.isKeyword keyword) ⟨c.widen x, b⟩) = _ ∧ _
  rw [h.peek_widen hs x]
  exact hf b

theorem agrees_read_bind {f f' : Token → Parser β} {Q : β → Cursor → Prop}
    (hf : (f c.peek).Agrees x (f' c.peek) c.advance Q) :
    (read >>= f).Agrees x (read >>= f') c Q := by
  intro b
  change (f' (c.widen x).peek ⟨(c.widen x).advance, b⟩) = _ ∧ _
  rw [h.peek_widen hs x, h.advance_widen hs x]
  exact hf b

theorem agrees_skip_bind {f f' : Unit → Parser β} {Q : β → Cursor → Prop}
    (hf : (f ()).Agrees x (f' ()) c.advance Q) : (skip >>= f).Agrees x (skip >>= f') c Q := by
  intro b
  change (f' () ⟨(c.widen x).advance, b⟩) = _ ∧ _
  rw [h.advance_widen hs x]
  exact hf b

theorem agrees_skip {Q : Unit → Cursor → Prop} (hq : Q () c.advance) :
    skip.Agrees x skip c Q := by
  refine fun b => ⟨?_, hq⟩
  change (⟨(), [], ⟨(c.widen x).advance, b⟩⟩ : Parsed Unit) = _
  rw [h.advance_widen hs x]
  rfl

end reading

theorem agrees_withNewlines {p p' : Parser α} {newlines : Bool} {Q : α → Cursor → Prop}
    (h : p.Agrees x p' (c.enter newlines) fun a c' => Q a c'.leave) :
    (withNewlines newlines p).Agrees x (withNewlines newlines p') c Q := by
  intro b
  obtain ⟨he, hq⟩ := h b
  refine ⟨?_, hq⟩
  change { p' ⟨(c.enter newlines).widen x, b⟩ with
    state := { (p' ⟨(c.enter newlines).widen x, b⟩).state with
      cursor := (p' ⟨(c.enter newlines).widen x, b⟩).state.cursor.leave } } = _
  rw [he]
  rfl

theorem agrees_tell_bind {ds : List Diagnostic} {f f' : Unit → Parser β} {Q : β → Cursor → Prop}
    (hf : (f ()).Agrees x (f' ()) c Q) : (tell ds >>= f).Agrees x (tell ds >>= f') c Q :=
  Agrees.bind fun _ => ⟨rfl, hf⟩

theorem agrees_report_bind {p : Problem} {r : SourceRange} {o : Option SourceRange}
    {f f' : Unit → Parser β} {Q : β → Cursor → Prop} (hf : (f ()).Agrees x (f' ()) c Q) :
    (report p r o >>= f).Agrees x (report p r o >>= f') c Q := agrees_tell_bind hf

theorem agrees_report {p : Problem} {r : SourceRange} {o : Option SourceRange}
    {Q : Unit → Cursor → Prop} (hq : Q () c) : (report p r o).Agrees x (report p r o) c Q :=
  fun _ => ⟨rfl, hq⟩

theorem agrees_reportFirst {p : Problem} {r : SourceRange} {o : Option SourceRange}
    {Q : Unit → Cursor → Prop} (hq : Q () c) :
    (reportFirst p r o).Agrees x (reportFirst p r o) c Q :=
  fun b => by cases b <;> exact ⟨rfl, hq⟩

theorem agrees_reportFirst_bind {p : Problem} {r : SourceRange} {o : Option SourceRange}
    {f f' : Unit → Parser β} {Q : β → Cursor → Prop} (hf : (f ()).Agrees x (f' ()) c Q) :
    (reportFirst p r o >>= f).Agrees x (reportFirst p r o >>= f') c Q :=
  Agrees.bind fun b => by cases b <;> exact ⟨rfl, hf⟩

theorem agrees_recover_bind {f f' : Unit → Parser β} {Q : β → Cursor → Prop}
    (hf : (f ()).Agrees x (f' ()) c Q) : (recover >>= f).Agrees x (recover >>= f') c Q :=
  Agrees.bind fun _ => ⟨rfl, hf⟩

theorem agrees_recovering_bind {f f' : Bool → Parser β} {Q : β → Cursor → Prop}
    (hf : ∀ b, (f b).Agrees x (f' b) c Q) : (recovering >>= f).Agrees x (recovering >>= f') c Q :=
  Agrees.bind fun b => ⟨rfl, hf b⟩

theorem Agrees.observe_seq {p p' : Parser α} {f f' : α × Bool → Parser β} {P : α → Cursor → Prop}
    {Q : β → Cursor → Prop} (h : p.Agrees x p' c P)
    (hf : ∀ a reported c', P a c' → (f (a, reported)).Agrees x (f' (a, reported)) c' Q) :
    (observe p >>= f).Agrees x (observe p' >>= f') c Q := by
  refine Agrees.seq (P := fun r c' => P r.1 c') (fun b => ?_) fun r c' hr => hf r.1 r.2 c' hr
  obtain ⟨he, hq⟩ := h b
  refine ⟨?_, hq⟩
  change (⟨((p' ⟨c.widen x, b⟩).value, !(p' ⟨c.widen x, b⟩).diagnostics.isEmpty),
    (p' ⟨c.widen x, b⟩).diagnostics, (p' ⟨c.widen x, b⟩).state⟩ : Parsed (α × Bool)) = _
  rw [he]
  rfl

theorem Agrees.track_seq {p p' : Parser α} {f f' : α × Bool → Parser β} {P : α → Cursor → Prop}
    {Q : β → Cursor → Prop} (h : p.Agrees x p' c P)
    (hf : ∀ a lost c', P a c' → (f (a, lost)).Agrees x (f' (a, lost)) c' Q) :
    (track p >>= f).Agrees x (track p' >>= f') c Q := by
  refine Agrees.seq (P := fun r c' => P r.1 c') ?_ fun r c' hr => hf r.1 r.2 c' hr
  exact h.observe_seq fun a reported c' hp => agrees_recovering_bind fun b => agrees_pure hp

theorem Agrees.iterateFor {step step' : σ → Parser (σ × Bool)} {I : Nat → σ → Cursor → Prop}
    {Q : σ → Cursor → Prop} (hstep : ∀ m a c, I m a c → (step a).Agrees x (step' a) c fun r c' =>
      if r.2 then ∃ j < m, I j r.1 c' else Q r.1 c') (m : Nat) :
    ∀ n n' a c, m < n → m < n' → I m a c →
      (iterateFor step n a).Agrees x (iterateFor step' n' a) c Q := by
  induction m using Nat.strongRecOn with
  | ind m ih =>
    intro n n' a c hn hn' ha
    obtain ⟨n, rfl⟩ : ∃ k, n = k + 1 := ⟨n - 1, by omega⟩
    obtain ⟨n', rfl⟩ : ∃ k, n' = k + 1 := ⟨n' - 1, by omega⟩
    refine (hstep m a c ha).seq fun r c' hr => ?_
    obtain ⟨a', more⟩ := r
    cases more with
    | true =>
      obtain ⟨j, hj, ha'⟩ : ∃ j < m, I j a' c' := by simpa using hr
      exact ih j hj n n' a' c' (by omega) (by omega) ha'
    | false => exact agrees_pure (by simpa using hr)

theorem Agrees.iterate {step step' : σ → Parser (σ × Bool)} {I : Nat → σ → Cursor → Prop}
    {Q : σ → Cursor → Prop} (hstep : ∀ m a c, I m a c → (step a).Agrees x (step' a) c fun r c' =>
      if r.2 then ∃ j < m, I j r.1 c' else Q r.1 c') {a : σ} (h : I c.remaining a c) :
    (iterate step a).Agrees x (iterate step' a) c Q := by
  intro b
  have hlen : (c.widen x).remaining = c.remaining + x.after.length := by
    simp [Cursor.remaining, Cursor.widen]
  exact Agrees.iterateFor hstep c.remaining (c.remaining + 1) ((c.widen x).remaining + 1) a c
    (by omega) (by omega) h b

-- What is known of agreeing parsers from here on are the rules above.
attribute [irreducible] Agrees

end Parser

end HclSyntax
