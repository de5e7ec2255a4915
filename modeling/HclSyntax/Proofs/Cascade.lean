import HclSyntax.Proofs.NoSilentError

namespace HclSyntax

/-- How many of the diagnostics are about generic mistakes. -/
def Diagnostic.generic (ds : List Diagnostic) : Nat := ds.countP (·.code.isGeneric)

namespace Diagnostic

@[simp] theorem generic_nil : generic [] = 0 := rfl

@[simp] theorem generic_append (ds ds' : List Diagnostic) :
    generic (ds ++ ds') = generic ds + generic ds' := List.countP_append

theorem generic_eq_zero {ds : List Diagnostic} (h : ∀ d ∈ ds, d.IsSpecific) : generic ds = 0 :=
  List.countP_eq_zero.mpr fun d hd => by simp [(h d hd).2]

theorem generic_singleton_le (d : Diagnostic) : generic [d] ≤ 1 := List.countP_le_length

theorem IsSpecific.code_ne {d : Diagnostic} (h : d.IsSpecific) : d.code ≠ .extraCharacters :=
  fun hc => absurd h.2 (by simp [hc, ErrorCode.isGeneric])

theorem isSpecific_toDiagnostic {p : Problem} (hp : p.code.isGeneric = false) (r : SourceRange)
    (x : Option SourceRange) : (p.toDiagnostic r x).IsSpecific := ⟨rfl, hp⟩

end Diagnostic

namespace Parser

open Diagnostic

variable {α : Type}

/-- Put together by the rules of `Compositional` alone: it has every property that they keep. The
one rule that reports a generic mistake does so unless there was a recovery, and recovers before
anything else is done. -/
def Cautious (p : Parser α) : Prop :=
  ∀ P : (α : Type) → Parser α → Prop, Compositional P → P α p

/-- What a run of `p` reports of generic mistakes. -/
structure Sparing (p : Parser α) : Prop where
  /-- None after a recovery; otherwise one at most, and then there is a recovery at the end. -/
  once (s : ParseState) :
    generic (p s).diagnostics + s.recovering.toNat ≤ (p s).state.recovering.toNat
  /-- Nothing stands after a whole expression while it is read. -/
  inside (s : ParseState) : ∀ d ∈ (p s).diagnostics, d.code ≠ .extraCharacters

theorem Sparing.generic_le_one {p : Parser α} (h : Sparing p) (s : ParseState) :
    generic (p s).diagnostics ≤ 1 := by
  have hflag := (p s).state.recovering.toNat_le
  have := h.once s
  omega

/-- A run that reports nothing of its own keeps the law if it keeps the flag. -/
theorem Sparing.of_silent {p : Parser α} (hd : ∀ s, (p s).diagnostics = [])
    (hs : ∀ s, (p s).state.recovering = s.recovering) : Sparing p where
  once s := by simp [hd, hs]
  inside s d h := by simp [hd] at h

theorem Sparing.of_specific {p : Parser α} (hd : ∀ s, ∀ d ∈ (p s).diagnostics, d.IsSpecific)
    (hs : ∀ s, (p s).state.recovering = s.recovering) : Sparing p where
  once s := by simp [generic_eq_zero (hd s), hs]
  inside s d h := (hd s d h).code_ne

theorem sparing_bind {β : Type} {p : Parser α} {f : α → Parser β} (hp : Sparing p)
    (hf : ∀ a, Sparing (f a)) : Sparing (p >>= f) where
  once s := by
    have h₁ := hp.once s
    have h₂ := (hf (p s).value).once (p s).state
    change generic (_ ++ _) + _ ≤ (f (p s).value (p s).state).state.recovering.toNat
    rw [generic_append]
    omega
  inside s d h := (List.mem_append.mp h).elim (hp.inside s d) ((hf _).inside _ d)

theorem sparing_tell {ds : List Diagnostic} (h : ∀ d ∈ ds, d.IsSpecific) : Sparing (tell ds) :=
  .of_specific (fun _ => h) fun _ => rfl

/-- A generic mistake and the recovery after it: either the flag was set, or it is now. -/
theorem sparing_reportLost {q : Parser α} {p : Problem} {r : SourceRange} {x : Option SourceRange}
    (hq : Sparing q) (hp : p.code ≠ .extraCharacters) :
    Sparing (reportFirst p r x >>= fun _ => recover >>= fun _ => q) where
  once s := by
    have h := hq.once ⟨s.cursor, true⟩
    have hone := generic_singleton_le (p.toDiagnostic r x)
    rw [reportLost_run]
    change generic (_ ++ _) + _ ≤ (q ⟨s.cursor, true⟩).state.recovering.toNat
    rw [generic_append]
    change _ + 1 ≤ _ at h
    cases hs : s.recovering with
    | true => simpa using h
    | false =>
      change generic [p.toDiagnostic r x] + _ + 0 ≤ _
      omega
  inside s d h := by
    rw [reportLost_run] at h
    rcases List.mem_append.mp h with h | h
    · split at h
      · cases h
      · rw [List.mem_singleton.mp h]
        exact hp
    · exact hq.inside ⟨s.cursor, true⟩ d h

theorem sparing : Compositional fun _ p => Sparing p where
  pure _ := .of_silent (fun _ => rfl) fun _ => rfl
  bind := sparing_bind
  peek := .of_silent (fun _ => rfl) fun _ => rfl
  skip := .of_silent (fun _ => rfl) fun _ => rfl
  previousRange := .of_silent (fun _ => rfl) fun _ => rfl
  recover := by
    refine ⟨fun s => ?_, fun s d h => by cases h⟩
    change 0 + s.recovering.toNat ≤ 1
    have := s.recovering.toNat_le
    omega
  tell := sparing_tell
  reportFirst p r x hp := by
    refine .of_specific (fun s d h => ?_) fun s => congrArg _ (state_reportFirst p r x s)
    obtain ⟨c, b⟩ := s
    cases b with
    | true => cases h
    | false => exact List.mem_singleton.mp h ▸ isSpecific_toDiagnostic hp r x
  reportLost _ _ _ := sparing_reportLost
  observe hp := ⟨hp.once, hp.inside⟩
  track hp :=
    sparing_bind ⟨hp.once, hp.inside⟩ fun _ => sparing_bind
      (.of_silent (fun _ => rfl) fun _ => rfl) fun _ => .of_silent (fun _ => rfl) fun _ => rfl
  unlessRecovering m r x hp hq hm := by
    have hreport := sparing_bind (sparing_tell (List.forall_mem_singleton.mpr
      (isSpecific_toDiagnostic hm r x))) fun _ => hp
    constructor <;> intro s <;> rw [unlessRecovering_run] <;> split
    · exact hreport.once s
    · exact hq.once s
    · exact hreport.inside s
    · exact hq.inside s
  withNewlines newlines hp :=
    ⟨fun s => hp.once { s with cursor := s.cursor.enter newlines },
      fun s => hp.inside { s with cursor := s.cursor.enter newlines }⟩
  bounded hp := ⟨fun s => (hp _).once s, fun s => (hp _).inside s⟩

theorem Cautious.sparing {p : Parser α} (h : Cautious p) : Sparing p := h _ Parser.sparing

/-- What is reported of the characters after an expression that was read up to `s`. -/
def extra (s : ParseState) : List Diagnostic :=
  if s.cursor.peek.kind ≠ .eof ∧ s.recovering = false then
    [Problem.extraAfterExpression.toDiagnostic s.cursor.peek.range none]
  else []

theorem diagnostics_extra (e : Expr) (s : ParseState) :
    (do let next ← peek
        if next.kind ≠ .eof then reportFirst .extraAfterExpression next.range none
        return e : Parser Expr) s = ⟨e, extra s, s⟩ := by
  obtain ⟨c, b⟩ := s
  change (if c.peek.kind ≠ .eof then
    reportFirst .extraAfterExpression c.peek.range none >>= fun _ => pure e else pure e) ⟨c, b⟩ = _
  unfold extra
  by_cases hk : c.peek.kind = .eof
  · simp only [hk, ne_eq, not_true_eq_false, false_and, if_false]
    rfl
  · simp only [hk, ne_eq, not_false_eq_true, true_and, if_true]
    cases b <;> rfl

theorem diagnostics_run (p : Parser α) (tokens : TokenList) :
    (p.run tokens).2 = (p tokens.start).diagnostics := rfl

/-- What stands after a whole expression is reported last. -/
theorem diagnostics_wholeExpression (c : Cursor) :
    (wholeExpression ⟨c, false⟩).diagnostics =
      (expression ⟨c.enter false, false⟩).diagnostics ++
        extra (expression ⟨c.enter false, false⟩).state := by
  have hrun (p : Parser Expr) : (withNewlines false (do
        let e ← p
        let next ← peek
        if next.kind ≠ .eof then reportFirst .extraAfterExpression next.range none
        return e) ⟨c, false⟩).diagnostics =
      (p ⟨c.enter false, false⟩).diagnostics ++ extra (p ⟨c.enter false, false⟩).state :=
    congrArg (_ ++ ·) (congrArg Parsed.diagnostics (diagnostics_extra _ _))
  exact hrun expression

/-- A generic mistake in the expression hides what stands after it. -/
theorem Sparing.generic_extra {p : Parser α} (h : Sparing p) (c : Cursor) :
    generic ((p ⟨c, false⟩).diagnostics ++ extra (p ⟨c, false⟩).state) ≤ 1 := by
  have hone : generic (p ⟨c, false⟩).diagnostics + 0 ≤ _ := h.once ⟨c, false⟩
  rw [generic_append, extra]
  split
  · rename_i he
    rw [he.2] at hone
    have hlast := generic_singleton_le
      (Problem.extraAfterExpression.toDiagnostic (p ⟨c, false⟩).state.cursor.peek.range none)
    change _ ≤ 0 at hone
    omega
  · exact h.generic_le_one _

end Parser

/-- Generic mistakes do not cascade: whatever the tokens, a source has one at most. All parsers are
put together so that a generic mistake is reported only where there was no recovery, and is one
before anything else is read; what follows a whole expression is reported last, and without one. -/
theorem generic_mistakes_do_not_cascade (tokens : TokenList) (closer : TokenKind) :
    (Diagnostic.generic (parseBody tokens closer).2 ≤ 1 ∧
      Diagnostic.generic (parseExpression tokens).2 ≤ 1 ∧
      Diagnostic.generic (parseTemplate tokens).2 ≤ 1 ∧
      Diagnostic.generic (parseTraversal tokens).2 ≤ 1) ∧
    (Parser.Cautious (Parser.body closer) ∧ Parser.Cautious Parser.expression ∧
      Parser.Cautious Parser.wholeTemplate ∧
      Parser.Cautious (Parser.withNewlines false Parser.traversal)) ∧
    (∀ (α : Type) (p : Parser α), Parser.Cautious p → Parser.Sparing p) ∧
    let r := Parser.expression ⟨tokens.start.cursor.enter false, false⟩
    (parseExpression tokens).2 = r.diagnostics ++ Parser.extra r.state := by
  have hbody : Parser.Cautious (Parser.body closer) := fun _ h => h.body closer
  have hexpr : Parser.Cautious Parser.expression := fun _ h => h.expression
  have htemplate : Parser.Cautious Parser.wholeTemplate := fun _ h => h.wholeTemplate
  have htraversal : Parser.Cautious (Parser.withNewlines false Parser.traversal) :=
    fun _ h => h.withNewlines false h.traversal
  have hlast : (parseExpression tokens).2 = _ :=
    (Parser.diagnostics_run _ _).trans (Parser.diagnostics_wholeExpression _)
  refine ⟨⟨hbody.sparing.generic_le_one _, ?_, htemplate.sparing.generic_le_one _,
    htraversal.sparing.generic_le_one _⟩, ⟨hbody, hexpr, htemplate, htraversal⟩,
    fun _ _ h => h.sparing, hlast⟩
  rw [hlast]
  exact hexpr.sparing.generic_extra _

end HclSyntax
