import HclSyntax.Proofs.Frame

namespace HclSyntax.Parser

variable {α : Type}

/-- A run that reports nothing without a recovery before it is the same after one. -/
structure Steady (p : Parser α) : Prop where
  sticky : Sticky p
  same (c : Cursor) (h : (p ⟨c, false⟩).diagnostics = []) :
    p ⟨c, true⟩ = ⟨(p ⟨c, false⟩).value, [], ⟨(p ⟨c, false⟩).state.cursor, true⟩⟩

/-- After a recovery a steady parser is at the same place, however the flag was before. -/
theorem Steady.of_state {p : Parser α} (h : Steady p) {s : ParseState}
    (hd : (p s).diagnostics = []) :
    p ⟨s.cursor, true⟩ = ⟨(p s).value, [], ⟨(p s).state.cursor, true⟩⟩ := by
  obtain ⟨c, b⟩ := s
  cases b with
  | false => exact h.same c hd
  | true =>
    have hr : (p ⟨c, true⟩).state.recovering = true := h.sticky ⟨c, true⟩ rfl
    calc p ⟨c, true⟩
      _ = ⟨(p ⟨c, true⟩).value, (p ⟨c, true⟩).diagnostics, (p ⟨c, true⟩).state.cursor,
          (p ⟨c, true⟩).state.recovering⟩ := rfl
      _ = _ := by rw [hd, hr]

theorem steady_bind {β : Type} {p : Parser α} {f : α → Parser β} (hp : Steady p)
    (hf : ∀ a, Steady (f a)) : Steady (p >>= f) := by
  constructor
  · exact sticky.bind hp.sticky fun a => (hf a).sticky
  · intro c h
    obtain ⟨h₁, h₂⟩ := List.append_eq_nil_iff.mp h
    have hrest := (hf (p ⟨c, false⟩).value).of_state h₂
    change (⟨(f (p ⟨c, true⟩).value (p ⟨c, true⟩).state).value, (p ⟨c, true⟩).diagnostics ++
      (f (p ⟨c, true⟩).value (p ⟨c, true⟩).state).diagnostics,
      (f (p ⟨c, true⟩).value (p ⟨c, true⟩).state).state⟩ : Parsed β) = _
    rw [hp.same c h₁, hrest]
    rfl

theorem steady_reportFirst (p : Problem) (r : SourceRange) (x : Option SourceRange) :
    Steady (reportFirst p r x) :=
  ⟨sticky_reportFirst p r x, fun _ h => absurd h (List.cons_ne_nil _ _)⟩

theorem steady : Compositional fun _ p => Steady p where
  pure a := ⟨sticky.pure a, fun _ _ => rfl⟩
  bind := steady_bind
  peek := ⟨sticky.peek, fun _ _ => rfl⟩
  skip := ⟨sticky.skip, fun _ _ => rfl⟩
  previousRange := ⟨sticky.previousRange, fun _ _ => rfl⟩
  recover := ⟨sticky.recover, fun _ _ => rfl⟩
  tell hd := by
    refine ⟨sticky.tell hd, fun c h => ?_⟩
    rw [← h]
    rfl
  reportFirst p r x _ := steady_reportFirst p r x
  reportLost p r x hq hp := by
    refine ⟨sticky.reportLost p r x hq.sticky hp, fun c h => ?_⟩
    rw [reportLost_run] at h
    exact absurd h (List.cons_ne_nil _ _)
  observe {α p} hp := by
    refine ⟨sticky.observe hp.sticky, fun c h => ?_⟩
    have h : (p ⟨c, false⟩).diagnostics = [] := h
    change (⟨((p ⟨c, true⟩).value, !(p ⟨c, true⟩).diagnostics.isEmpty), (p ⟨c, true⟩).diagnostics,
      (p ⟨c, true⟩).state⟩ : Parsed (α × Bool)) =
      ⟨((p ⟨c, false⟩).value, !(p ⟨c, false⟩).diagnostics.isEmpty), _, _⟩
    rw [hp.same c h, h]
    rfl
  track {α p} hp := by
    refine ⟨sticky.track hp.sticky, fun c h => ?_⟩
    -- nothing was reported, so nothing counts as lost, whatever the flag says
    have h : (p ⟨c, false⟩).diagnostics = [] := (List.append_eq_nil_iff.mp h).1
    change (⟨((p ⟨c, true⟩).value, !(p ⟨c, true⟩).diagnostics.isEmpty &&
      (p ⟨c, true⟩).state.recovering), (p ⟨c, true⟩).diagnostics ++ [],
      (p ⟨c, true⟩).state⟩ : Parsed (α × Bool)) =
      ⟨((p ⟨c, false⟩).value, !(p ⟨c, false⟩).diagnostics.isEmpty && _), _, _⟩
    rw [hp.same c h, h]
    rfl
  unlessRecovering m r x hp hq hm := by
    refine ⟨sticky.unlessRecovering m r x hp.sticky hq.sticky hm, fun c h => ?_⟩
    rw [unlessRecovering_run] at h ⊢
    rw [unlessRecovering_run]
    -- what is wrong without a recovery is reported
    rename_i wrong _ p q
    by_cases hw : wrong
    · rw [if_pos ⟨hw, rfl⟩] at h
      exact absurd h (List.cons_ne_nil _ _)
    · rw [if_neg fun hc => hw hc.1] at h ⊢
      rw [if_neg fun hc => hw hc.1]
      exact hq.same c h
  withNewlines {α p} newlines hp := by
    refine ⟨sticky.withNewlines newlines hp.sticky, fun c h => ?_⟩
    change { p ⟨c.enter newlines, true⟩ with
      state := { (p ⟨c.enter newlines, true⟩).state with
        cursor := (p ⟨c.enter newlines, true⟩).state.cursor.leave } } = _
    rw [hp.same (c.enter newlines) h]
    rfl
  bounded {α p} hp :=
    ⟨sticky.bounded fun n => (hp n).sticky, fun c h => (hp (c.remaining + 1)).same c h⟩

end HclSyntax.Parser
