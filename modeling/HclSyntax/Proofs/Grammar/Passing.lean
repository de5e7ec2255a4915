import HclSyntax.Cursor
import HclSyntax.Proofs.Grammar.Derives

namespace HclSyntax

/-- What is not seen is not the end of the file. -/
theorem Sees.kind_ne_eof {nl : Bool} {t : Token} {ts : List Token} (h : Sees nl t ts)
    (hk : t.kind ≠ .eof) : ∀ x ∈ ts, x.kind ≠ .eof := by
  obtain ⟨hs, rfl, hh, -⟩ := h
  intro x hx
  rcases List.mem_append.mp hx with hx | hx
  · intro he
    simpa [Token.hidden, he] using hh x hx
  · rwa [List.mem_singleton.mp hx]

/-- A token that is no newline is seen where newlines do not count, too. -/
theorem Sees.newlines_hidden {nl : Bool} {t : Token} {ts : List Token} (h : Sees nl t ts)
    (hk : t.kind ≠ .newline) : Sees false t ts := by
  obtain ⟨hs, rfl, hh, ht⟩ := h
  refine ⟨hs, rfl, fun x hx => ?_, ?_⟩
  · have := hh x hx
    simp only [Token.hidden, Bool.or_eq_true, Bool.and_eq_true] at this ⊢
    exact this.imp_right fun h => ⟨h.1, rfl⟩
  · simp only [Token.hidden, Bool.or_eq_false_iff] at ht ⊢
    exact ⟨ht.1, by simp [hk]⟩

namespace Cursor

variable {c c' c'' : Cursor} {nl : Bool} {ts ts' : List Token}

/-- Newlines count as told, and the source ends with the end of the file. -/
structure InMode (c : Cursor) (newlines : Bool) : Prop where
  newlines : c.newlinesCount = newlines
  ends : c.eof.kind = .eof

/-- `ts` are the tokens from `c` to `c'`, where newlines count as at `c`. The file does not end
between them. -/
structure Passes (c : Cursor) (ts : List Token) (c' : Cursor) : Prop where
  rest : c.rest = ts ++ c'.rest
  modes : c'.modes = c.modes
  eof : c'.eof = c.eof
  inside : ∀ t ∈ ts, t.kind ≠ .eof

theorem Passes.refl (c : Cursor) : c.Passes [] c := ⟨rfl, rfl, rfl, by simp⟩

theorem Passes.trans (h : c.Passes ts c') (h' : c'.Passes ts' c'') : c.Passes (ts ++ ts') c'' := by
  refine ⟨by rw [h.rest, h'.rest, List.append_assoc], h'.modes.trans h.modes,
    h'.eof.trans h.eof, fun t ht => ?_⟩
  rcases List.mem_append.mp ht with ht | ht
  · exact h.inside t ht
  · exact h'.inside t ht

theorem Passes.inMode (h : c.Passes ts c') (hc : c.InMode nl) : c'.InMode nl := by
  refine ⟨?_, h.eof ▸ hc.ends⟩
  rw [← hc.newlines]
  unfold newlinesCount
  rw [h.modes]

theorem InMode.enter (hc : c.InMode nl) (nl' : Bool) : (c.enter nl').InMode nl' := ⟨rfl, hc.ends⟩

/-- What is read in another mode is read. -/
theorem Passes.leave {nl' : Bool} (h : (c.enter nl').Passes ts c') : c.Passes ts c'.leave := by
  refine ⟨h.rest, ?_, h.eof, h.inside⟩
  change c'.modes.tail = c.modes
  rw [h.modes]
  rfl

theorem InMode.hides (hc : c.InMode nl) : c.hides = Token.hidden nl := by
  rw [← hc.newlines]
  rfl

/-- The next token, unless the file ends before it. -/
theorem InMode.sees (hc : c.InMode nl) (hk : c.peek.kind ≠ .eof) :
    ∃ ts, c.Passes ts c.advance ∧ Sees nl c.peek ts := by
  have h : c.rest.takeWhile c.hides ++ c.rest.dropWhile c.hides = c.rest :=
    List.takeWhile_append_dropWhile
  cases hd : c.rest.dropWhile c.hides with
  | nil => simp [peek, hd, hc.ends] at hk
  | cons t rest =>
    have ht : c.hides t = false := by
      have := List.head?_dropWhile_not c.hides c.rest
      simpa [hd] using this
    have hp : c.peek = t := by simp [peek, hd]
    have hr : c.advance.rest = rest := by simp [advance, hd]
    have hs : Sees nl c.peek (c.rest.takeWhile c.hides ++ [t]) := by
      refine ⟨c.rest.takeWhile c.hides, by rw [hp], fun x hx => ?_, by rw [hp, ← hc.hides, ht]⟩
      rw [← hc.hides]
      exact List.all_eq_true.mp List.all_takeWhile x hx
    refine ⟨_, ⟨?_, ?_, ?_, hs.kind_ne_eof hk⟩, hs⟩
    · rw [hr, List.append_assoc, List.singleton_append, ← hd]
      exact h.symm
    · simp [advance, hd]
    · simp [advance, hd]

theorem InMode.mark (hc : c.InMode nl) {k : TokenKind} (hk : c.peek.kind = k)
    (hne : k ≠ .eof := by decide) : ∃ ts, c.Passes ts c.advance ∧ Mark nl k ts := by
  obtain ⟨ts, hp, hs⟩ := hc.sees (hk ▸ hne)
  exact ⟨ts, hp, c.peek, hk, hs⟩

theorem InMode.name (hc : c.InMode nl) (hk : c.peek.kind = .identifier) :
    ∃ ts, c.Passes ts c.advance ∧ Name nl c.peek.text ts := by
  obtain ⟨ts, hp, hs⟩ := hc.sees (by simp [hk])
  exact ⟨ts, hp, c.peek, hk, rfl, hs⟩

theorem InMode.keyword (hc : c.InMode nl) {w : String} (hk : c.peek.isKeyword w) :
    ∃ ts, c.Passes ts c.advance ∧ Keyword nl w ts := by
  have hi := Token.kind_of_isKeyword hk
  obtain ⟨ts, hp, hs⟩ := hc.sees (by simp [hi])
  exact ⟨ts, hp, c.peek, hk, hs⟩

/-- A token that is next is read. -/
theorem InMode.read_sees (hc : c.InMode nl) {t : Token} {rest : List Token}
    (hr : c.rest = ts ++ rest) (h : Sees nl t ts) : c.peek = t ∧
      c.advance = { c with passed := ts.reverse ++ c.passed, rest } := by
  obtain ⟨hs, rfl, hh, ht⟩ := h
  have hd : c.rest.dropWhile c.hides = t :: rest := by
    rw [hr, hc.hides, List.append_assoc, List.dropWhile_append_of_pos hh]
    simp [ht]
  have htake : c.rest.takeWhile c.hides = hs := by
    rw [hr, hc.hides, List.append_assoc, List.takeWhile_append_of_pos hh]
    simp [ht]
  refine ⟨by simp [peek, hd], ?_⟩
  unfold advance
  rw [htake, hd]
  simp

/-- A keyword is read where newlines do not count, too. -/
theorem InMode.keyword_enter (hc : c.InMode nl) {w : String} (hk : c.peek.isKeyword w) :
    ∃ ts, (c.enter false).Passes ts (c.enter false).advance ∧ Keyword nl w ts := by
  obtain ⟨ts, hp, t, ht, hs⟩ := hc.keyword hk
  have hi := Token.kind_of_isKeyword ht
  have hr : (c.enter false).rest = ts ++ c.advance.rest := hp.rest
  obtain ⟨-, ha⟩ := (hc.enter false).read_sees hr (hs.newlines_hidden (by simp [hi]))
  exact ⟨ts, ⟨by rw [ha]; exact hr, by rw [ha], by rw [ha], hp.inside⟩, t, ht, hs⟩

/-- The first token to be seen is the one that is next. -/
theorem InMode.peek_of_begins (hc : c.InMode nl) {p : Token → Prop} {rest : List Token}
    (hr : c.rest = ts ++ rest) (h : Begins nl p ts) : p c.peek := by
  obtain ⟨t, ts₁, ts₂, hp, hs, rfl⟩ := h
  rw [List.append_assoc] at hr
  rwa [(hc.read_sees hr hs).1]

end Cursor

end HclSyntax
