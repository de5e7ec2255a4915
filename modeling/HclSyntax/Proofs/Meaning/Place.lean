import Mathlib.Data.List.TakeWhile
import HclSyntax.Proofs.Frame
import HclSyntax.Proofs.Meaning.Said

namespace HclSyntax

namespace Cursor

variable {c : Cursor}

/-- If anything is left, the end of the file is left as the last. -/
def Ended (c : Cursor) : Prop := ∀ t ∈ c.rest.getLast?, t.kind = .eof

/-- The end of the file is seen everywhere, so there is a next token as long as one is left. -/
theorem Ended.next (h : c.Ended) : c.rest = [] ∨ ∃ t ts, c.rest.dropWhile c.hides = t :: ts ∧
    c.hides t = false ∧ c.peek = t ∧ c.advance.rest = ts ∧ c.advance.passed.head? = some t := by
  rcases hd : c.rest.dropWhile c.hides with _ | ⟨t, ts⟩
  · refine .inl (List.eq_nil_iff_forall_not_mem.mpr fun u hu => ?_)
    have hne := List.ne_nil_of_mem hu
    have hlast := h (c.rest.getLast hne) (List.getLast?_eq_some_getLast hne)
    have hhidden := List.dropWhile_eq_nil_iff.mp hd _ (List.getLast_mem hne)
    simp [hides, hlast] at hhidden
  · have hhead := List.head?_dropWhile_not c.hides c.rest
    simp only [hd, List.head?_cons] at hhead
    refine .inr ⟨t, ts, rfl, by simpa using hhead, by simp [peek, hd], ?_, ?_⟩ <;>
      simp [advance, hd]

theorem Ended.advance (h : c.Ended) : c.advance.Ended := by
  obtain ⟨ts, hr, -⟩ := (reaches_advance c).tokens
  intro t ht
  refine h t ?_
  rw [hr, List.getLast?_append, Option.mem_def.mp ht]
  rfl

theorem advance_of_rest_nil (h : c.rest = []) : c.advance = c := by
  obtain ⟨passed, rest, eof, modes⟩ := c
  subst h
  rfl

end Cursor

namespace Likeness

variable {x : Likeness} {m : List Bool} {c c' : Cursor}

/-- Whether a token may ever be seen. -/
def keeps (x : Likeness) (t : Token) : Bool :=
  t.kind != .comment && !(x.joined && t.kind == .newline)

/-- Places in two sources, in the mode `m`, from which on like tokens are seen. -/
structure Places (x : Likeness) (m : List Bool) (c c' : Cursor) : Prop where
  modes : c.modes = m
  modes' : c'.modes = m
  eof : x.Like c.eof c'.eof
  eof_kind : c.eof.kind = .eof
  rest : x.Like (c.rest.filter x.keeps) (c'.rest.filter x.keeps)
  passed : x.Like c.passed.head? c'.passed.head?
  ended : c.Ended
  ended' : c'.Ended
  /-- Where newlines are never seen they do not count. -/
  noise : x.joined = true → m.headD true = false
  braces : x.braces = false → ∀ t ∈ c.rest, t.kind ≠ .openBrace

theorem Like.keeps {t t' : Token} (h : x.Like t t') : x.keeps t = x.keeps t' := by
  rw [Likeness.keeps, Likeness.keeps, h.kind]

/-- What is never seen is hidden in every mode. -/
theorem hides_of_not_keeps (hm : c.modes = m) (hn : x.joined = true → m.headD true = false)
    (t : Token) (hk : x.keeps t = false) : c.hides t = true := by
  subst hm
  rw [keeps, Bool.and_eq_false_iff] at hk
  rw [Cursor.hides, Bool.or_eq_true]
  rcases hk with hk | hk
  · exact .inl (by simpa using hk)
  · obtain ⟨hj, hk⟩ : x.joined = true ∧ t.kind = .newline := by simpa using hk
    have hcount : c.newlinesCount = false := hn hj
    exact .inr (by rw [hk, hcount]; rfl)

/-- What is never seen can be left out before one looks for the next token that is seen. -/
theorem filter_dropWhile {f g : Token → Bool} (h : ∀ t, g t = false → f t = true)
    (ts : List Token) : (ts.dropWhile f).filter g = (ts.filter g).dropWhile f := by
  induction ts with
  | nil => rfl
  | cons t ts ih =>
    cases hg : g t with
    | true =>
      rw [List.filter_cons_of_pos hg, List.dropWhile_cons, List.dropWhile_cons]
      split
      · exact ih
      · rw [List.filter_cons_of_pos hg]
    | false =>
      rw [List.filter_cons_of_neg (by simp [hg]), List.dropWhile_cons_of_pos (h t hg)]
      exact ih

namespace Places

theorem hides_eq (h : x.Places m c c') : c.hides = c'.hides := by
  funext t
  rw [Cursor.hides, Cursor.hides, Cursor.newlinesCount, Cursor.newlinesCount, h.modes, h.modes']

/-- Nothing is left in either source, or the next tokens that are seen are alike, and so is what
comes after them. -/
theorem next (h : x.Places m c c') : (c.rest = [] ∧ c'.rest = []) ∨ x.Like c.peek c'.peek ∧
    x.Like (c.advance.rest.filter x.keeps) (c'.advance.rest.filter x.keeps) ∧
    x.Like c.advance.passed.head? c'.advance.passed.head? := by
  have hhide := hides_of_not_keeps h.modes h.noise
  have hlike := h.rest.dropWhile (f := c.hides) fun t t' ht => by
    rw [Cursor.hides, Cursor.hides, ht.kind]
  rw [← filter_dropWhile hhide, ← filter_dropWhile hhide] at hlike
  have hkept {t : Token} (ht : c.hides t = false) : x.keeps t = true := by
    cases hk : x.keeps t with
    | true => rfl
    | false =>
      rw [hhide t hk] at ht
      cases ht
  rcases h.ended.next with hr | ⟨t, ts, hd, ht, hp, hrest, hpassed⟩ <;>
    rcases h.ended'.next with hr' | ⟨t', ts', hd', ht', hp', hrest', hpassed'⟩
  · exact .inl ⟨hr, hr'⟩
  · rw [hr, h.hides_eq, hd', List.filter_cons_of_pos (hkept (h.hides_eq ▸ ht'))] at hlike
    exact nomatch hlike.eq_nil
  · rw [hr', hd, List.filter_cons_of_pos (hkept ht)] at hlike
    obtain ⟨_, _, hnil, -⟩ := hlike.uncons
    cases hnil
  · rw [hd, h.hides_eq, hd', List.filter_cons_of_pos (hkept ht),
      List.filter_cons_of_pos (hkept (h.hides_eq ▸ ht'))] at hlike
    obtain ⟨_, _, heq, hlt, hlts⟩ := hlike.uncons
    obtain ⟨rfl, rfl⟩ := List.cons.inj heq
    rw [hp, hp', hrest, hrest', hpassed, hpassed']
    exact .inr ⟨hlt, hlts, hlt.some⟩

theorem peek (h : x.Places m c c') : x.Like c.peek c'.peek := by
  rcases h.next with ⟨hr, hr'⟩ | ⟨hp, -⟩
  · simpa [Cursor.peek, hr, hr'] using h.eof
  · exact hp

theorem advance (h : x.Places m c c') : x.Places m c.advance c'.advance := by
  rcases h.next with ⟨hr, hr'⟩ | ⟨-, hrest, hpassed⟩
  · rwa [Cursor.advance_of_rest_nil hr, Cursor.advance_of_rest_nil hr']
  · have hc := Cursor.reaches_advance c
    have hc' := Cursor.reaches_advance c'
    refine ⟨hc.modes.trans h.modes, hc'.modes.trans h.modes', ?_, ?_, hrest, hpassed,
      h.ended.advance, h.ended'.advance, h.noise, fun hb t ht => ?_⟩
    · rw [hc.eof, hc'.eof]
      exact h.eof
    · rw [hc.eof]
      exact h.eof_kind
    · obtain ⟨ts, hts, -⟩ := hc.tokens
      exact h.braces hb t (hts ▸ List.mem_append_right ts ht)

theorem previousRange (h : x.Places m c c') : x.Like c.previousRange c'.previousRange := by
  have hp := h.passed
  have hk := h.peek
  unfold Cursor.previousRange
  rw [List.headD_eq_head?_getD, List.headD_eq_head?_getD]
  cases hc : c.passed.head? with
  | none =>
    rw [hc] at hp
    rw [hp.eq_none]
    exact hk.tokenRange
  | some t =>
    rw [hc] at hp
    obtain ⟨t', ht', hlike⟩ := hp.of_some
    rw [ht']
    exact hlike.tokenRange

theorem enter (h : x.Places m c c') {newlines : Bool} (hn : x.joined = true → newlines = false) :
    x.Places (newlines :: m) (c.enter newlines) (c'.enter newlines) :=
  ⟨congrArg _ h.modes, congrArg _ h.modes', h.eof, h.eof_kind, h.rest, h.passed, h.ended,
    h.ended', hn, h.braces⟩

theorem leave {newlines : Bool} (h : x.Places (newlines :: m) c c')
    (hn : x.joined = true → m.headD true = false) : x.Places m c.leave c'.leave :=
  ⟨by rw [Cursor.leave, h.modes]; rfl, by rw [Cursor.leave, h.modes']; rfl, h.eof, h.eof_kind,
    h.rest, h.passed, h.ended, h.ended', hn, h.braces⟩

/-- Without opening braces none is seen. -/
theorem peek_ne_openBrace (h : x.Places m c c') (hb : x.braces = false) :
    c.peek.kind ≠ .openBrace := by
  rw [Cursor.peek, List.headD_eq_head?_getD]
  cases hd : (c.rest.dropWhile c.hides).head? with
  | none => simp [h.eof_kind]
  | some t => exact h.braces hb t ((List.dropWhile_suffix _).mem (List.mem_of_head? hd))

end Places

end Likeness

end HclSyntax
