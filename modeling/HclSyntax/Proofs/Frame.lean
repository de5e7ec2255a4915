import HclSyntax.Proofs.Compositional

namespace HclSyntax

/-- `c'` is a later place in the same source, where newlines count as at `c`. -/
structure Cursor.Reaches (c c' : Cursor) : Prop where
  modes : c'.modes = c.modes
  eof : c'.eof = c.eof
  tokens : ∃ ts, c.rest = ts ++ c'.rest ∧ c'.passed = ts.reverse ++ c.passed

namespace Cursor

variable {c c' c'' : Cursor}

theorem Reaches.refl (c : Cursor) : c.Reaches c := ⟨rfl, rfl, [], by simp⟩

theorem Reaches.trans (h : c.Reaches c') (h' : c'.Reaches c'') : c.Reaches c'' := by
  obtain ⟨ts, hr, hp⟩ := h.tokens
  obtain ⟨ts', hr', hp'⟩ := h'.tokens
  exact ⟨h'.modes.trans h.modes, h'.eof.trans h.eof, ts ++ ts', by simp [hr, hr'],
    by simp [hp, hp']⟩

theorem reaches_advance (c : Cursor) : c.Reaches c.advance := by
  have h : c.rest.takeWhile c.hides ++ c.rest.dropWhile c.hides = c.rest :=
    List.takeWhile_append_dropWhile
  unfold advance
  split
  · rename_i hd
    exact ⟨rfl, rfl, c.rest.takeWhile c.hides, by simpa [hd] using h.symm, by simp⟩
  · rename_i t rest hd
    exact ⟨rfl, rfl, c.rest.takeWhile c.hides ++ [t], by simpa [hd] using h.symm, by simp⟩

/-- The mode in which a part was read is left again. -/
theorem Reaches.leave {newlines : Bool} (h : (c.enter newlines).Reaches c') :
    c.Reaches c'.leave := by
  refine ⟨?_, h.eof, h.tokens⟩
  change c'.modes.tail = c.modes
  rw [h.modes]
  rfl

theorem Reaches.remaining_le (h : c.Reaches c') : c'.remaining ≤ c.remaining := by
  obtain ⟨ts, hr, -⟩ := h.tokens
  simp [remaining, hr]

/-- A place is known by what is left there. -/
theorem Reaches.eq_of_rest {ts : List Token} (h : c.Reaches c') (hr : c.rest = ts ++ c'.rest) :
    c' = { c with passed := ts.reverse ++ c.passed, rest := c'.rest } := by
  obtain ⟨hmodes, heof, ts', hrest, hpassed⟩ := h
  obtain rfl : ts = ts' := List.append_cancel_right (hr.symm.trans hrest)
  obtain ⟨passed', rest', eof', modes'⟩ := c'
  subst hmodes heof hpassed
  rfl

end Cursor

namespace Parser

/-- A parser moves forward in its source and leaves the modes as they were. -/
def Framed {α : Type} (p : Parser α) : Prop := ∀ s : ParseState, s.cursor.Reaches (p s).state.cursor

/-- After a recovery there always was one. -/
def Sticky {α : Type} (p : Parser α) : Prop :=
  ∀ s : ParseState, s.recovering = true → (p s).state.recovering = true

/-- Everything that is reported is an error. -/
def OnlyErrors {α : Type} (p : Parser α) : Prop :=
  ∀ s, ∀ d ∈ (p s).diagnostics, d.severity = .error

/-- What is reported unless there was a recovery leaves everything else as it is. -/
theorem state_reportFirst (p : Problem) (r : SourceRange) (x : Option SourceRange)
    (s : ParseState) : (reportFirst p r x s).state = s := by
  obtain ⟨c, b⟩ := s
  cases b <;> rfl

/-- A run that goes on after a generic mistake: the mistake is reported unless the flag is set, and
what follows sees it set. -/
theorem reportLost_run {α : Type} (p : Problem) (r : SourceRange) (x : Option SourceRange)
    (q : Parser α) (s : ParseState) :
    (reportFirst p r x >>= fun _ => recover >>= fun _ => q) s =
      { q ⟨s.cursor, true⟩ with
        diagnostics := (if s.recovering then [] else [p.toDiagnostic r x]) ++
          (q ⟨s.cursor, true⟩).diagnostics } := by
  obtain ⟨c, b⟩ := s
  cases b <;> rfl

/-- Of two ways to go on the flag and the next token choose one. -/
theorem unlessRecovering_run {α : Type} {wrong : Prop} [Decidable wrong] (m : Problem)
    (r : SourceRange) (x : Option SourceRange) (p q : Parser α) (s : ParseState) :
    (recovering >>= fun b => if wrong ∧ !b then report m r x >>= fun _ => p else q) s =
      if wrong ∧ !s.recovering then (report m r x >>= fun _ => p) s else q s := by
  change (if wrong ∧ !s.recovering then report m r x >>= fun _ => p else q) s = _
  split <;> rfl

theorem framed_reportFirst (p : Problem) (r : SourceRange) (x : Option SourceRange) :
    Framed (reportFirst p r x) := by
  intro s
  rw [state_reportFirst]
  exact .refl _

theorem framed : Compositional fun _ p => Framed p where
  pure _ _ := .refl _
  bind hp hf s := (hp s).trans (hf _ _)
  peek _ := .refl _
  skip s := s.cursor.reaches_advance
  previousRange _ := .refl _
  recover _ := .refl _
  tell _ _ := .refl _
  reportFirst p r x _ := framed_reportFirst p r x
  reportLost p r x hq _ s := by
    rw [reportLost_run]
    exact hq ⟨s.cursor, true⟩
  observe hp s := hp s
  track hp s := hp s
  unlessRecovering m r x hp hq _ s := by
    rw [unlessRecovering_run]
    split
    · exact hp s
    · exact hq s
  withNewlines newlines hp s := (hp { s with cursor := s.cursor.enter newlines }).leave
  bounded hp s := hp _ s

theorem sticky_reportFirst (p : Problem) (r : SourceRange) (x : Option SourceRange) :
    Sticky (reportFirst p r x) := by
  intro s h
  rw [state_reportFirst]
  exact h

theorem sticky : Compositional fun _ p => Sticky p where
  pure _ _ h := h
  bind hp hf s h := hf _ _ (hp s h)
  peek _ h := h
  skip _ h := h
  previousRange _ h := h
  recover _ _ := rfl
  tell _ _ h := h
  reportFirst p r x _ := sticky_reportFirst p r x
  reportLost p r x hq _ s _ := by
    rw [reportLost_run]
    exact hq ⟨s.cursor, true⟩ rfl
  observe hp s h := hp s h
  track hp s h := hp s h
  unlessRecovering m r x hp hq _ s h := by
    rw [unlessRecovering_run]
    split
    · exact hp s h
    · exact hq s h
  withNewlines newlines hp s h := hp { s with cursor := s.cursor.enter newlines } h
  bounded hp s h := hp _ s h

theorem onlyErrors_reportFirst (p : Problem) (r : SourceRange) (x : Option SourceRange) :
    OnlyErrors (reportFirst p r x) := by
  intro s d h
  obtain ⟨c, b⟩ := s
  cases b with
  | true => cases h
  | false =>
    rw [List.mem_singleton.mp h]
    rfl

theorem onlyErrors : Compositional fun _ p => OnlyErrors p where
  pure _ _ _ h := by cases h
  bind hp hf s d h := (List.mem_append.mp h).elim (hp s d) (hf _ _ d)
  peek _ _ h := by cases h
  skip _ _ h := by cases h
  previousRange _ _ h := by cases h
  recover _ _ h := by cases h
  tell hd _ d h := (hd d h).1
  reportFirst p r x _ := onlyErrors_reportFirst p r x
  reportLost p r x hq _ s d h := by
    rw [reportLost_run] at h
    rcases List.mem_append.mp h with h | h
    · split at h
      · cases h
      · rw [List.mem_singleton.mp h]
        rfl
    · exact hq ⟨s.cursor, true⟩ d h
  observe hp s d h := hp s d h
  track hp s d h := by
    have h' : d ∈ (_ : List Diagnostic) ++ [] := h
    rw [List.append_nil] at h'
    exact hp s d h'
  unlessRecovering m r x hp hq _ s d h := by
    rw [unlessRecovering_run] at h
    split at h
    · rcases List.mem_append.mp h with h | h
      · rw [List.mem_singleton.mp h]
        rfl
      · exact hp s d h
    · exact hq s d h
  withNewlines newlines hp s d h := hp { s with cursor := s.cursor.enter newlines } d h
  bounded hp s d h := hp _ s d h

end Parser

end HclSyntax
