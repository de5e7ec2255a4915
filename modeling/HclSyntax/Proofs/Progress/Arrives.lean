import HclSyntax.Proofs.Progress.Steps

namespace HclSyntax.Parser

variable {H : Diagnostic → Prop} {α β σ : Type} {c : Cursor}

/-- From `c` on, after a recovery or not, `p` gives an answer and gets to a place as told, if its
reports are all of the kind `H`. -/
def Arrives (H : Diagnostic → Prop) (p : Parser α) (c : Cursor) (Q : α → Cursor → Prop) : Prop :=
  ∀ b, (∀ d ∈ (p ⟨c, b⟩).diagnostics, H d) → Q (p ⟨c, b⟩).value (p ⟨c, b⟩).state.cursor

/-- `p` gives an answer and gets to a place as told, whatever it reports. -/
abbrev Ends (p : Parser α) (c : Cursor) (Q : α → Cursor → Prop) : Prop :=
  Arrives (fun _ => True) p c Q

section
variable {p : Parser α} {f : α → Parser β} {P P' : α → Cursor → Prop} {Q : β → Cursor → Prop}

theorem arrives_pure {a : α} (h : P a c) : Arrives H (pure a) c P := fun _ _ => h

theorem Arrives.mono (h : Arrives H p c P) (hp : ∀ a c', P a c' → P' a c') :
    Arrives H p c P' := fun b hd => hp _ _ (h b hd)

theorem Arrives.seq (h : Arrives H p c P) (hf : ∀ a c', P a c' → Arrives H (f a) c' Q) :
    Arrives H (p >>= f) c Q :=
  fun b hd => hf _ _ (h b fun d hm => hd d (List.mem_append_left _ hm)) _
    fun d hm => hd d (List.mem_append_right _ hm)

/-- Parsers that stay where they are. -/
def Still (p : Parser α) : Prop := ∀ s, (p s).state.cursor = s.cursor

theorem Still.seq (h : Still p) (hf : ∀ a, Arrives H (f a) c Q) :
    Arrives H (p >>= f) c Q := by
  refine Arrives.seq (P := fun _ c' => c' = c) (fun b _ => h ⟨c, b⟩) ?_
  rintro a _ rfl
  exact hf a

end

theorem still_pure (a : α) : Still (pure a) := fun _ => rfl

theorem Still.bind {p : Parser α} {f : α → Parser β} (hp : Still p) (hf : ∀ a, Still (f a)) :
    Still (p >>= f) :=
  fun s => (hf _ _).trans (hp s)

theorem still_previousRange : Still previousRange := fun _ => rfl

theorem still_recover : Still recover := fun _ => rfl

theorem still_recovering : Still recovering := fun _ => rfl

theorem still_tell (ds : List Diagnostic) : Still (tell ds) := fun _ => rfl

theorem still_report (p : Problem) (r : SourceRange) (x : Option SourceRange) :
    Still (report p r x) := still_tell _

theorem still_reportFirst (p : Problem) (r : SourceRange) (x : Option SourceRange) :
    Still (reportFirst p r x) := fun s => by rw [state_reportFirst]

theorem still_invalid : Still invalid := fun s => by
  change (reportFirst .invalidExpression s.cursor.peek.range none s).state.cursor = s.cursor
  rw [state_reportFirst]

theorem still_numberValue (t : Token) : Still (numberValue t) := by
  unfold numberValue
  split
  · exact still_pure _
  · exact (still_report _ _ _).bind fun _ => still_pure _

theorem still_chunk (t : Token) : Still (chunk t) := (still_tell _).bind fun _ => still_pure _

theorem still_reportComprehension (opening : Token) (p : ComprehensionProblem) :
    Still (reportComprehension opening p) := fun _ => by
  exact still_reportFirst _ _ _ _

theorem still_checkResult (opening : Token) (key : Option Expr) (value : Expr)
    (ellipsis : Option Token) (whole : SourceRange) :
    Still (checkResult opening key value ellipsis whole) := by
  unfold checkResult
  repeat' split
  all_goals first
    | exact still_pure _
    | exact still_report _ _ _
    | exact (still_report _ _ _).bind fun _ => still_pure _
    | exact (still_report _ _ _).bind fun _ => still_report _ _ _

theorem still_reportHeader (name t : Token) : Still (reportHeader name t) := by
  unfold reportHeader
  dsimp only
  split
  · exact still_report _ _ _
  · exact still_report _ _ _
  · exact still_reportFirst _ _ _

theorem still_reportItem (start : SourceRange) (t : Token) : Still (reportItem start t) := by
  unfold reportItem
  split <;> exact still_reportFirst _ _ _

section
variable {Q : β → Cursor → Prop}

/-- A report of another kind is not considered. -/
theorem arrives_report_bind {p : Problem} {r : SourceRange} {x : Option SourceRange}
    {f : Unit → Parser β} (h : ¬H (p.toDiagnostic r x)) :
    Arrives H (report p r x >>= f) c Q :=
  fun _ hd => absurd (hd _ (List.mem_append_left _ (List.mem_singleton_self _))) h

theorem arrives_peek_bind {f : Token → Parser β} (h : Arrives H (f c.peek) c Q) :
    Arrives H (peek >>= f) c Q := h

theorem arrives_peekKind_bind {f : TokenKind → Parser β} (h : Arrives H (f c.peek.kind) c Q) :
    Arrives H (peekKind >>= f) c Q := h

theorem arrives_atKeyword_bind {keyword : String} {f : Bool → Parser β}
    (h : ∀ b, (b = true → c.peek.isKeyword keyword) → Arrives H (f b) c Q) :
    Arrives H (atKeyword keyword >>= f) c Q := h (c.peek.isKeyword keyword) id

theorem arrives_read_bind {f : Token → Parser β} (h : Arrives H (f c.peek) c.advance Q) :
    Arrives H (read >>= f) c Q := h

theorem arrives_skip_bind {f : Unit → Parser β} (h : Arrives H (f ()) c.advance Q) :
    Arrives H (skip >>= f) c Q := h

theorem Arrives.withNewlines {p : Parser β} {newlines : Bool}
    (h : Arrives H p (c.enter newlines) fun a c' => Q a c'.leave) :
    Arrives H (withNewlines newlines p) c Q := h

theorem Arrives.observe_seq {p : Parser α} {f : α × Bool → Parser β} {P : α → Cursor → Prop}
    (h : Arrives H p c P) (hf : ∀ a reported c', P a c' → Arrives H (f (a, reported)) c' Q) :
    Arrives H (observe p >>= f) c Q := by
  have hobserve : Arrives H (observe p) c fun r c' => P r.1 c' := h
  exact hobserve.seq fun r c' hr => hf r.1 r.2 c' hr

theorem Arrives.track_seq {p : Parser α} {f : α × Bool → Parser β} {P : α → Cursor → Prop}
    (h : Arrives H p c P) (hf : ∀ a lost c', P a c' → Arrives H (f (a, lost)) c' Q) :
    Arrives H (track p >>= f) c Q := by
  refine Arrives.seq (P := fun r c' => P r.1 c') ?_ fun r c' hr => hf r.1 r.2 c' hr
  exact h.observe_seq fun a reported c' ha => still_recovering.seq fun b => arrives_pure ha

end

/-- What holds wherever the steps get, and what the last step makes of it. -/
theorem Arrives.iterate {step : σ → Parser (σ × Bool)} (h : Advances step)
    {I Q : σ → Cursor → Prop} (hs : ∀ a c, I a c → Arrives H (step a) c fun r c' =>
      if r.2 then I r.1 c' else Q r.1 c') {a : σ} (he : c.eof.kind = .eof) (hi : I a c) :
    Arrives H (iterate step a) c Q := by
  intro b
  induction hn : c.remaining using Nat.strongRecOn generalizing a b c with
  | _ n ih =>
    rw [h.unfold a (s := ⟨c, b⟩) he]
    intro hd
    have hstep := hs a c hi b fun d hm => hd d (List.mem_append_left _ hm)
    have hrest := fun d hm => hd d (List.mem_append_right _ hm)
    change Q ((if (step a ⟨c, b⟩).value.2 then Parser.iterate step (step a ⟨c, b⟩).value.1
      else pure (step a ⟨c, b⟩).value.1) (step a ⟨c, b⟩).state).value
        ((if (step a ⟨c, b⟩).value.2 then Parser.iterate step (step a ⟨c, b⟩).value.1
          else pure (step a ⟨c, b⟩).value.1) (step a ⟨c, b⟩).state).state.cursor
    cases hmore : (step a ⟨c, b⟩).value.2 with
    | true =>
      simp only [hmore, if_true] at hstep hrest ⊢
      exact ih _ (hn ▸ h.passes a ⟨c, b⟩ he hmore) ((h.framed a).ends (s := ⟨c, b⟩) he) hstep _
        rfl hrest
    | false =>
      simp only [hmore, Bool.false_eq_true, if_false] at hstep ⊢
      exact hstep

/-- The next token is passed, and maybe others. -/
def Passes (p : Parser α) : Prop :=
  ∀ s : ParseState, s.Ends → s.cursor.advance.Reaches (p s).state.cursor

theorem passes_skip : Passes skip := fun _ _ => .refl _

theorem passes_read_bind {f : Token → Parser β} (hf : ∀ t, Framed (f t)) : Passes (read >>= f) :=
  fun s _ => hf s.cursor.peek { s with cursor := s.cursor.advance }

theorem Passes.seq {p : Parser α} {f : α → Parser β} (hp : Passes p) (hf : ∀ a, Framed (f a)) :
    Passes (p >>= f) := fun s hs => (hp s hs).trans (hf _ _)

theorem Still.passes {p : Parser α} {f : α → Parser β} (hp : Still p) (hf : ∀ a, Passes (f a)) :
    Passes (p >>= f) := fun s hs => by
  have h := hf (p s).value (p s).state
  rw [ParseState.Ends, hp s] at h
  exact h hs

theorem passes_iterate {step : σ → Parser (σ × Bool)} (ha : Advances step)
    (h : ∀ a, Passes (step a)) (a : σ) : Passes (iterate step a) := fun s hs => by
  rw [ha.unfold a hs]
  refine (h a).seq (fun r => ?_) s hs
  split
  · exact framed.iterate ha.framed _
  · exact framed.pure _

theorem passes_skipPast (k : TokenKind) : Passes (skipPast k) := by
  have hstep (depth : Nat) : Passes (skipPastStep k depth) := by
    refine passes_read_bind fun t => ?_
    dsimp only
    repeat' split
    all_goals exact framed.pure _
  exact still_recover.passes fun _ =>
    (passes_iterate (advances_skipPastStep k) hstep 0).seq fun _ => framed.pure _

end HclSyntax.Parser
