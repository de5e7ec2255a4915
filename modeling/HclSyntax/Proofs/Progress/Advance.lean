import HclSyntax.Proofs.Frame
import HclSyntax.Proofs.Reads

namespace HclSyntax

namespace Cursor

variable {c c' c'' : Cursor}

/-- `c'` is a later place than `c`: a token was passed on the way that is not the end of the file.
Newlines may count at one and not at the other. -/
def Precedes (c c' : Cursor) : Prop :=
  ∃ ts, c.rest = ts ++ c'.rest ∧ ∃ t ∈ ts, t.kind ≠ .eof

theorem Precedes.remaining_lt (h : c.Precedes c') : c'.remaining < c.remaining := by
  obtain ⟨ts, hr, t, ht, -⟩ := h
  have hpos := List.length_pos_of_mem ht
  rw [remaining, remaining, hr, List.length_append]
  omega

theorem Precedes.trans_suffix (h : c.Precedes c') (hs : c''.rest <:+ c'.rest) :
    c.Precedes c'' := by
  obtain ⟨ts, hr, t, ht, hk⟩ := h
  obtain ⟨ts', hr'⟩ := hs
  exact ⟨ts ++ ts', by rw [hr, ← hr', List.append_assoc], t, List.mem_append_left _ ht, hk⟩

theorem Reaches.suffix (h : c.Reaches c') : c'.rest <:+ c.rest := by
  obtain ⟨ts, hr, -⟩ := h.tokens
  exact ⟨ts, hr.symm⟩

/-- Whoever passes a token that is not the end of the file gets further. -/
theorem precedes_advance (he : c.eof.kind = .eof) (hk : c.peek.kind ≠ .eof) :
    c.Precedes c.advance := by
  have hsplit : c.rest.takeWhile c.hides ++ c.rest.dropWhile c.hides = c.rest :=
    List.takeWhile_append_dropWhile
  unfold advance
  rcases hd : c.rest.dropWhile c.hides with _ | ⟨t, rest⟩
  · exact absurd (by rw [peek, hd]; exact he) hk
  · refine ⟨c.rest.takeWhile c.hides ++ [t], ?_, t, by simp, ?_⟩
    · simpa [hd] using hsplit.symm
    · rwa [peek, hd] at hk

theorem remaining_advance_lt (he : c.eof.kind = .eof) (hk : c.peek.kind ≠ .eof) :
    c.advance.remaining < c.remaining := (precedes_advance he hk).remaining_lt

end Cursor

/-- After all tokens the end of the file is read, again and again. -/
def ParseState.Ends (s : ParseState) : Prop := s.cursor.eof.kind = .eof

namespace Parser

variable {α β σ : Type}

theorem Framed.ends {p : Parser α} (hp : Framed p) {s : ParseState} (hs : s.Ends) :
    (p s).state.Ends := by
  rw [ParseState.Ends, (hp s).eof]
  exact hs

/-- Only what comes after `p` differs. -/
theorem bind_congr_run {p : Parser α} {f f' : α → Parser β} {s : ParseState}
    (h : f (p s).value (p s).state = f' (p s).value (p s).state) : (p >>= f) s = (p >>= f') s := by
  change (⟨(f _ _).value, _ ++ (f _ _).diagnostics, (f _ _).state⟩ : Parsed β) = _
  rw [h]
  rfl

/-- If the answer of `p` asks for more, less than `n` tokens are left after it. -/
def Moves (n : Nat) (more : α → Bool) (p : Parser α) (s : ParseState) : Prop :=
  more (p s).value = true → (p s).state.cursor.remaining < n

variable {n : Nat} {more : β → Bool} {s : ParseState}

theorem moves_done {b : β} (h : more b = false) : Moves n more (pure b) s := by
  intro hm
  rw [show more b = true from hm] at h
  cases h

theorem Moves.of_framed {p : Parser β} (hp : Framed p) (h : s.cursor.remaining < n) :
    Moves n more p s := fun _ => Nat.lt_of_le_of_lt (hp s).remaining_le h

/-- What comes last decides. -/
theorem Moves.last {p : Parser α} {f : α → Parser β} (h : ∀ a t, Moves n more (f a) t) :
    Moves n more (p >>= f) s := h _ _

theorem Moves.seq {p : Parser α} {f : α → Parser β} (hp : Framed p) (hs : s.Ends)
    (h : ∀ a t, t.Ends → t.cursor.remaining ≤ s.cursor.remaining → Moves n more (f a) t) :
    Moves n more (p >>= f) s := h _ _ (hp.ends hs) (hp s).remaining_le

/-- What is made of the answer in the end may be looked at as well. -/
theorem moves_map {p : Parser α} {f : α → β} :
    Moves n more (p >>= fun a => pure (f a)) s ↔ Moves n (fun a => more (f a)) p s := Iff.rfl

theorem moves_peek_bind {f : Token → Parser β} :
    Moves n more (peek >>= f) s ↔ Moves n more (f s.cursor.peek) s := Iff.rfl

theorem moves_peekKind_bind {f : TokenKind → Parser β} :
    Moves n more (peekKind >>= f) s ↔ Moves n more (f s.cursor.peek.kind) s := Iff.rfl

theorem moves_read_bind {f : Token → Parser β} :
    Moves n more (read >>= f) s ↔
      Moves n more (f s.cursor.peek) { s with cursor := s.cursor.advance } := Iff.rfl

/-- A token that is not the end of the file is passed in any case. -/
theorem moves_skip_bind {f : Unit → Parser β} (hf : Framed (f ())) (hs : s.Ends)
    (hk : s.cursor.peek.kind ≠ .eof) (hn : s.cursor.remaining ≤ n) :
    Moves n more (skip >>= f) s :=
  Moves.of_framed (s := { s with cursor := s.cursor.advance }) hf
    (Nat.lt_of_lt_of_le (Cursor.remaining_advance_lt hs hk) hn)

/-- A step that moves forward, and passes a token if it asks for more. -/
structure Advances (step : σ → Parser (σ × Bool)) : Prop where
  framed (a : σ) : Framed (step a)
  passes (a : σ) (s : ParseState) (hs : s.Ends) : Moves s.cursor.remaining Prod.snd (step a) s

variable {step : σ → Parser (σ × Bool)}

theorem iterateFor_succ (n : Nat) (a : σ) :
    iterateFor step (n + 1) a =
      (step a >>= fun r => if r.2 then iterateFor step n r.1 else pure r.1) := rfl

/-- Any two bounds that exceed the number of tokens left will do. -/
theorem Advances.bound_irrelevant (h : Advances step) {m k : Nat} (a : σ) (hs : s.Ends)
    (hm : s.cursor.remaining < m) (hk : s.cursor.remaining < k) :
    iterateFor step m a s = iterateFor step k a s := by
  induction m generalizing k a s with
  | zero => omega
  | succ m ih =>
    obtain ⟨k, rfl⟩ : ∃ j, k = j + 1 := ⟨k - 1, by omega⟩
    rw [iterateFor_succ, iterateFor_succ]
    apply bind_congr_run
    split
    · rename_i hmore
      have hlt := h.passes a s hs hmore
      exact ih _ ((h.framed a).ends hs) (by omega) (by omega)
    · rfl

/-- A repetition does what it would do without a bound. -/
theorem Advances.unfold (h : Advances step) (a : σ) (hs : s.Ends) :
    iterate step a s =
      (step a >>= fun r => if r.2 then iterate step r.1 else pure r.1) s := by
  rw [iterate, iterateFor_succ]
  apply bind_congr_run
  split
  · rename_i hmore
    exact h.bound_irrelevant _ ((h.framed a).ends hs) (h.passes a s hs hmore) (Nat.lt_succ_self _)
  · rfl

/-- The rest of a repetition after a step that asks for more. -/
theorem Advances.reports_more (h : Advances step) {a a' b : σ} {c c₁ c₂ : Cursor}
    {ds ds' : List Diagnostic} (he : c.eof.kind = .eof)
    (hs : (step a).Reports c (a', true) ds c₁) (hrest : (iterate step a').Reports c₁ b ds' c₂) :
    (iterate step a).Reports c b (ds ++ ds') c₂ := by
  rw [Reports, h.unfold a (s := ⟨c, false⟩) he]
  exact hs.bind hrest

theorem Advances.reports_last (h : Advances step) {a b : σ} {c c' : Cursor}
    {ds : List Diagnostic} (he : c.eof.kind = .eof) (hs : (step a).Reports c (b, false) ds c') :
    (iterate step a).Reports c b ds c' := by
  rw [Reports, h.unfold a (s := ⟨c, false⟩) he, ← List.append_nil ds]
  exact hs.bind reports_pure

/-- What holds wherever the steps get, and what the last step makes of it. -/
theorem Advances.last_step (h : Advances step) {I Q : ParseState → Prop}
    (hI : ∀ a s, I s → I (step a s).state)
    (hQ : ∀ a s, I s → (step a s).value.2 = false → Q (step a s).state)
    (a : σ) (hs : s.Ends) (hi : I s) : Q (iterate step a s).state := by
  induction hn : s.cursor.remaining using Nat.strongRecOn generalizing a s with
  | _ n ih =>
    rw [h.unfold a hs]
    change Q ((if (step a s).value.2 then iterate step (step a s).value.1
      else pure (step a s).value.1) (step a s).state).state
    split
    · rename_i hmore
      exact ih _ (hn ▸ h.passes a s hs hmore) _ ((h.framed a).ends hs) (hI a s hi) rfl
    · rename_i hdone
      exact hQ a s hi (Bool.eq_false_iff.mpr hdone)

end Parser

end HclSyntax
