import HclSyntax.Proofs.Grammar.Balanced
import HclSyntax.Proofs.Grammar.Passing

namespace HclSyntax

/-- A bracket that is open. -/
structure Bracket where
  closer : TokenKind
  /-- Whether what counts in it does not depend on what counts around it. -/
  shelters : Bool

/-- Whether a star is the first of the tokens but for newlines. -/
def beginsWithStar (ts : List Token) : Bool :=
  (ts.dropWhile (·.kind == .newline)).head?.any (·.kind == .star)

/-- A bracket in front of `ts`. Strings leave newlines as they are around them, and so does the
bracket of a full splat. -/
def Token.bracket (t : Token) (ts : List Token) : Bracket where
  closer := t.kind.opposite
  shelters :=
    match t.kind with
    | .openQuote | .openHeredoc => false
    | .openBracket => !beginsWithStar ts
    | _ => true

/-- Whether all newlines are sheltered by brackets of these tokens or by those that are open. -/
def sheltered : List Bracket → List Token → Bool
  | _, [] => true
  | opened, t :: ts =>
    if t.kind.isOpener then sheltered (t.bracket ts :: opened) ts
    else if t.kind.isCloser then sheltered opened.tail ts
    else (t.kind != .newline || opened.any (·.shelters)) && sheltered opened ts

section
variable {t : Token} {ts hs : List Token} {opened : List Bracket}

theorem sheltered_flat (hk : t.kind.Flat) (h : sheltered opened (t :: ts)) :
    sheltered opened ts := by
  rw [sheltered, hk.1, hk.2] at h
  simp only [Bool.false_eq_true, if_false, Bool.and_eq_true] at h
  exact h.2

/-- Where nothing shelters it there is no newline. -/
theorem kind_ne_newline_of_sheltered (h : sheltered opened (t :: ts))
    (ho : ∀ b ∈ opened, b.shelters = false) : t.kind ≠ .newline := by
  intro hn
  have hany : opened.any (·.shelters) = false := by simpa using ho
  simp [sheltered, hn, TokenKind.isOpener, TokenKind.isCloser, hany] at h

theorem sheltered_newlines (hn : ∀ x ∈ hs, x.kind = .newline)
    (h : sheltered opened (hs ++ ts)) : sheltered opened ts := by
  induction hs with
  | nil => exact h
  | cons x hs ih =>
    refine ih (fun y hy => hn y (by simp [hy])) (sheltered_flat (t := x) ?_ h)
    rw [hn x (by simp)]
    decide

/-- The first token is a star only if the first of the tokens but for newlines is one. -/
theorem beginsWithStar_of_next {p : Token → Bool} {more : List Token} {e : Token}
    (hp : ∀ y ∈ ts, p y → y.kind = .newline) (hm : ((more.dropWhile p).headD e).kind ≠ .star)
    (h : (((ts ++ more).dropWhile p).headD e).kind = .star) : beginsWithStar ts := by
  induction ts with
  | nil => exact absurd h hm
  | cons y ts ih =>
    rw [List.cons_append, List.dropWhile_cons] at h
    split at h
    · rename_i hy
      have hn : y.kind = .newline := hp y (by simp) hy
      rw [beginsWithStar, List.dropWhile_cons_of_pos (by simp [hn])]
      exact ih (fun z hz => hp z (by simp [hz])) h
    · have hk : y.kind = .star := h
      simp [beginsWithStar, hk]

end

/-- A kind of token that ends nothing, neither a bracket nor the file. -/
abbrev TokenKind.Inner (k : TokenKind) : Prop := k.Flat ∧ k ≠ .eof

/-- Around the value there is a line of a body, which ends behind it. -/
structure Surroundings.Line (x : Surroundings) : Prop where
  breaks : ∃ t ts, x.after = t :: ts ∧ t.kind = .newline
  ends : x.eof.kind = .eof

namespace Cursor

/-- The same place in a line of a body, where newlines count. -/
def inBody (c : Cursor) (x : Surroundings) : Cursor :=
  ⟨c.passed ++ x.before, c.rest.dropLast ++ x.after, x.eof, c.modes.dropLast⟩

theorem remaining_le_inBody (c : Cursor) {x : Surroundings} (hx : x.Line) :
    c.remaining ≤ (c.inBody x).remaining := by
  obtain ⟨t, ts, hafter, -⟩ := hx.breaks
  simp only [remaining, inBody, hafter, List.length_append, List.length_dropLast, List.length_cons]
  omega

/-- The next token is the same in the body. -/
structure Same (c : Cursor) (x : Surroundings) : Prop where
  peek : (c.inBody x).peek = c.peek
  advance : (c.inBody x).advance = c.advance.inBody x

/-- A place in a value that is read on its own: where newlines count in what is being read inside of
it, which brackets are open and how many tokens may be left. -/
structure InValue (c : Cursor) (begun : Bool) (modes : List Bool) (opened : List Bracket)
    (bound : Nat) : Prop where
  modes_eq : c.modes = modes ++ [false]
  passed : begun = true → c.passed ≠ []
  ends : c.eof.kind = .eof
  ahead : ∃ ts, c.rest = ts ++ [c.eof] ∧ (∀ t ∈ ts, t.kind ≠ .eof ∧ t.kind ≠ .comment) ∧
    closes ts (opened.map Bracket.closer) ∧ sheltered opened ts
  remaining_le : c.remaining ≤ bound

/-- Where only the surroundings say whether newlines count, nothing shelters them; elsewhere some
bracket is open. -/
structure Fits (modes : List Bool) (opened : List Bracket) : Prop where
  outside : modes = [] → ∀ b ∈ opened, b.shelters = false
  inside : modes ≠ [] → opened ≠ []

theorem fits_cons (nl : Bool) (modes : List Bool) (b : Bracket) (opened : List Bracket) :
    Fits (nl :: modes) (b :: opened) :=
  ⟨fun h => absurd h (List.cons_ne_nil _ _), fun _ => List.cons_ne_nil _ _⟩

theorem Fits.open {modes : List Bool} {opened : List Bracket} (h : Fits modes opened)
    {b : Bracket} (hb : modes = [] → b.shelters = false) : Fits modes (b :: opened) := by
  refine ⟨fun hm x hx => ?_, fun _ => List.cons_ne_nil _ _⟩
  rcases List.mem_cons.mp hx with rfl | hx
  · exact hb hm
  · exact h.outside hm x hx

theorem fits_nil : Fits [] [] := ⟨fun _ _ h => absurd h List.not_mem_nil, fun h => absurd rfl h⟩

namespace InValue

variable {c : Cursor} {begun : Bool} {modes : List Bool} {opened opened' : List Bracket}
  {b : Bracket} {m m' : Nat} {x : Surroundings}

theorem mono (h : c.InValue begun modes opened m) (hm : m ≤ m') : c.InValue begun modes opened m' :=
  ⟨h.modes_eq, h.passed, h.ends, h.ahead, Nat.le_trans h.remaining_le hm⟩

theorem bound_pos (h : c.InValue begun modes opened m) : ∃ j, m = j + 1 := by
  obtain ⟨ts, hr, -⟩ := h.ahead
  have hle := h.remaining_le
  rw [remaining, hr, List.length_append, List.length_singleton] at hle
  exact ⟨m - 1, by omega⟩

theorem exact (h : c.InValue begun modes opened m) : c.InValue begun modes opened c.remaining :=
  ⟨h.modes_eq, h.passed, h.ends, h.ahead, Nat.le_refl _⟩

theorem weaken (h : c.InValue true modes opened m) : c.InValue begun modes opened m :=
  ⟨h.modes_eq, fun _ => h.passed rfl, h.ends, h.ahead, h.remaining_le⟩

theorem enter (h : c.InValue begun modes opened m) (nl : Bool) :
    (c.enter nl).InValue begun (nl :: modes) opened m :=
  ⟨by rw [List.cons_append, ← h.modes_eq]; rfl, h.passed, h.ends, h.ahead, h.remaining_le⟩

theorem leave {nl : Bool} (h : c.InValue begun (nl :: modes) opened m) :
    c.leave.InValue begun modes opened m := by
  refine ⟨?_, h.passed, h.ends, h.ahead, h.remaining_le⟩
  change c.modes.tail = _
  rw [h.modes_eq]
  rfl

theorem enter_inBody (h : c.InValue begun modes opened m) (nl : Bool) :
    (c.inBody x).enter nl = (c.enter nl).inBody x := by
  have hne : c.modes ≠ [] := by simp [h.modes_eq]
  simp [inBody, Cursor.enter, List.dropLast_cons_of_ne_nil hne]

theorem leave_inBody {nl : Bool} (h : c.InValue begun (nl :: modes) opened m) :
    (c.inBody x).leave = c.leave.inBody x := by
  have hne : modes ++ [false] ≠ [] := by simp
  simp [inBody, Cursor.leave, h.modes_eq, List.dropLast_cons_of_ne_nil hne]

theorem previousRange_inBody (h : c.InValue true modes opened m) :
    (c.inBody x).previousRange = c.previousRange := by
  unfold previousRange inBody
  cases hc : c.passed with
  | nil => exact absurd hc (h.passed rfl)
  | cons t ts => rfl

theorem inMode (h : c.InValue begun modes opened m) : c.InMode (modes.headD false) := by
  refine ⟨?_, h.ends⟩
  rw [newlinesCount, h.modes_eq]
  cases modes <;> rfl

theorem inMode_inBody (h : c.InValue begun modes opened m) (hx : x.Line) :
    (c.inBody x).InMode (modes.headD true) := by
  refine ⟨?_, hx.ends⟩
  rw [newlinesCount, inBody, h.modes_eq, List.dropLast_concat]

/-- The next token and what is hidden in front of it, which is the same in both readings. -/
theorem next (h : c.InValue begun modes opened m) (hf : Fits modes opened)
    (hk : c.peek.kind ≠ .eof) : ∃ hs us, c.rest = hs ++ [c.peek] ++ (us ++ [c.eof]) ∧
      Sees (modes.headD false) c.peek (hs ++ [c.peek]) ∧
      Sees (modes.headD true) c.peek (hs ++ [c.peek]) ∧
      (∀ t ∈ us, t.kind ≠ .eof ∧ t.kind ≠ .comment) ∧
      closes (c.peek :: us) (opened.map Bracket.closer) ∧ sheltered opened (c.peek :: us) := by
  obtain ⟨ts, hr, hts, hc, hsh⟩ := h.ahead
  obtain ⟨ts₁, hp, hs, rfl, hh, hv⟩ := h.inMode.sees hk
  -- the tokens up to the next one are of the value
  have hrest : hs ++ [c.peek] ++ c.advance.rest = ts ++ [c.eof] := by rw [← hp.rest, hr]
  obtain ⟨us, hus⟩ : ∃ us, c.advance.rest = us ++ [c.eof] := by
    rcases List.eq_nil_or_concat c.advance.rest with hnil | ⟨us, e, hus⟩
    · rw [hnil, List.append_nil] at hrest
      obtain ⟨-, he⟩ := List.append_inj' hrest rfl
      exact absurd (List.singleton_inj.mp he ▸ h.ends) hk
    · rw [hus, List.concat_eq_append, ← List.append_assoc] at hrest
      obtain ⟨-, he⟩ := List.append_inj' hrest rfl
      exact ⟨us, by rw [hus, List.concat_eq_append, List.singleton_inj.mp he]⟩
  obtain rfl : ts = hs ++ [c.peek] ++ us := by
    rw [hus, ← List.append_assoc] at hrest
    exact (List.append_inj' hrest rfl).1.symm
  have hn : ∀ y ∈ hs, y.kind = .newline := by
    intro y hy
    have hc := (hts y (by simp [hy])).2
    have := hh y hy
    simp only [Token.hidden, Bool.or_eq_true, Bool.and_eq_true, beq_iff_eq] at this
    exact (this.resolve_left hc).1
  have hsee : Sees (modes.headD true) c.peek (hs ++ [c.peek]) := by
    cases modes with
    | cons nl modes => exact ⟨hs, rfl, hh, hv⟩
    | nil =>
      -- outside of what shelters them there are no newlines to hide
      have hnil : hs = [] := by
        cases hs with
        | nil => rfl
        | cons y hs =>
          exact absurd (hn y (by simp)) (kind_ne_newline_of_sheltered hsh (hf.outside rfl))
      subst hnil
      exact ⟨[], rfl, by simp, by simp [Token.hidden, (hts c.peek (by simp)).2]⟩
  rw [List.append_assoc, List.singleton_append] at hc hsh
  refine ⟨hs, us, ?_, ⟨hs, rfl, hh, hv⟩, hsee, fun t ht => hts t (by simp [ht]), ?_, ?_⟩
  · rw [← hus]
    exact hp.rest
  · have hhide : ∀ y ∈ hs, y.hidden false := fun y hy => by simp [Token.hidden, hn y hy]
    rwa [closes_hidden hhide] at hc
  · exact sheltered_newlines hn hsh

theorem same (h : c.InValue begun modes opened m) (hf : Fits modes opened) (hx : x.Line)
    (hk : c.peek.kind ≠ .eof) : c.Same x := by
  obtain ⟨hs, us, hr, hsees, hsees', -⟩ := h.next hf hk
  have hrest : (c.inBody x).rest = hs ++ [c.peek] ++ (us ++ x.after) := by
    rw [inBody, hr, ← List.append_assoc, List.dropLast_concat, List.append_assoc]
  obtain ⟨-, ha⟩ := h.inMode.read_sees hr hsees
  obtain ⟨hp', ha'⟩ := (h.inMode_inBody hx).read_sees hrest hsees'
  refine ⟨hp', ?_⟩
  rw [ha', ha]
  simp [inBody]

/-- Past the next token, whatever it does to the open brackets. -/
theorem step (h : c.InValue begun modes opened (m + 1)) (hf : Fits modes opened)
    (hk : c.peek.kind ≠ .eof)
    (hopen : ∀ us, c.advance.rest = us ++ [c.advance.eof] →
      closes (c.peek :: us) (opened.map Bracket.closer) → sheltered opened (c.peek :: us) →
        closes us (opened'.map Bracket.closer) ∧ sheltered opened' us) :
    c.advance.InValue true modes opened' m := by
  obtain ⟨hs, us, hr, hsees, -, hus, hc, hsh⟩ := h.next hf hk
  obtain ⟨-, ha⟩ := h.inMode.read_sees hr hsees
  have hle := h.remaining_le
  rw [remaining, hr] at hle
  simp only [List.length_append, List.length_singleton] at hle
  rw [ha] at hopen ⊢
  obtain ⟨hc', hsh'⟩ := hopen us rfl hc hsh
  refine ⟨h.modes_eq, fun _ => by simp, h.ends, ⟨us, rfl, hus, hc', hsh'⟩, ?_⟩
  simp only [remaining, List.length_append, List.length_singleton]
  omega

/-- A token that is no bracket leaves the brackets open. -/
theorem pass (h : c.InValue begun modes opened (m + 1)) (hf : Fits modes opened)
    (hk : c.peek.kind.Inner) : c.advance.InValue true modes opened m := by
  refine h.step hf hk.2 fun us _ hc hsh => ⟨?_, sheltered_flat hk.1 hsh⟩
  rwa [closes_flat hk.1] at hc

/-- Such a token may be passed without a count. -/
theorem skip (h : c.InValue begun modes opened m) (hf : Fits modes opened)
    (hk : c.peek.kind.Inner) : c.advance.InValue true modes opened m := by
  obtain ⟨j, rfl⟩ := h.bound_pos
  exact (h.pass hf hk).mono (Nat.le_succ j)

/-- An opening bracket is open from then on. -/
theorem opens (h : c.InValue begun modes opened (m + 1)) (hf : Fits modes opened)
    (hk : c.peek.kind.isOpener) : ∃ us, c.advance.rest = us ++ [c.advance.eof] ∧
      c.advance.InValue true modes (c.peek.bracket us :: opened) m := by
  have he : c.peek.kind ≠ .eof := by
    intro he
    simp [he, TokenKind.isOpener] at hk
  obtain ⟨hs, us, hr, hsees, -⟩ := h.next hf he
  obtain ⟨-, ha⟩ := h.inMode.read_sees hr hsees
  have hus : c.advance.rest = us ++ [c.advance.eof] := by rw [ha]
  refine ⟨us, hus, h.step hf he fun us' hus' hc hsh => ?_⟩
  obtain rfl : us' = us := (List.append_inj' (hus'.symm.trans hus) rfl).1
  rw [closes_opener hk] at hc
  rw [sheltered, if_pos hk] at hsh
  exact ⟨hc, hsh⟩

/-- A closing bracket closes the innermost one. -/
theorem closed (h : c.InValue begun modes (b :: opened) m) (hf : Fits modes (b :: opened))
    (hk : c.peek.kind.isCloser) : c.advance.InValue true modes opened m := by
  obtain ⟨j, rfl⟩ := h.bound_pos
  have he : c.peek.kind ≠ .eof := by
    intro he
    simp [he, TokenKind.isCloser] at hk
  have ho : c.peek.kind.isOpener = false := by
    cases ho : c.peek.kind <;> simp_all [TokenKind.isCloser, TokenKind.isOpener]
  have hstep : c.advance.InValue true modes opened j := by
    refine h.step hf he fun us _ hc hsh => ?_
    rw [closes, ho, hk] at hc
    rw [sheltered, ho, hk] at hsh
    simp only [List.map_cons, Bool.false_eq_true, if_false, if_true, List.tail_cons,
      Bool.and_eq_true] at hc hsh
    exact ⟨hc.2, hsh⟩
  exact hstep.mono (Nat.le_succ j)

/-- Where the value is seen to end, all brackets are closed, and in the body the line ends. -/
theorem ended (h : c.InValue begun modes opened m) (hf : Fits modes opened)
    (hk : c.peek.kind = .eof) : modes = [] ∧ opened = [] ∧ c.rest = [c.eof] := by
  obtain ⟨ts, hr, hts, hc, hsh⟩ := h.ahead
  have hsplit : ts.takeWhile c.hides ++ ts.dropWhile c.hides = ts :=
    List.takeWhile_append_dropWhile
  have hn : ∀ y ∈ ts, y.kind = .newline := by
    rcases hd : ts.dropWhile c.hides with _ | ⟨t, rest⟩
    · rw [hd, List.append_nil] at hsplit
      intro y hy
      have hh : c.hides y := List.all_eq_true.mp List.all_takeWhile y (by rwa [hsplit])
      simp only [hides, Bool.or_eq_true, Bool.and_eq_true, beq_iff_eq] at hh
      exact (hh.resolve_left (hts y hy).2).1
    · have hne : ts.dropWhile c.hides ≠ [] := by simp [hd]
      have hpeek : c.peek = t := by
        rw [peek, hr, List.dropWhile_append, hd]
        rfl
      exact absurd (hpeek ▸ hk) (hts t (by rw [← hsplit, hd]; simp)).1
  have hnil : opened = [] := by
    have hhide : ∀ y ∈ ts, y.hidden false := fun y hy => by simp [Token.hidden, hn y hy]
    have hskip : closes (ts ++ []) (opened.map Bracket.closer) = closes [] _ := closes_hidden hhide
    rw [List.append_nil, hc] at hskip
    simpa [closes] using hskip.symm
  subst hnil
  have hmodes : modes = [] := Decidable.byContradiction fun hne => hf.inside hne rfl
  refine ⟨hmodes, rfl, ?_⟩
  cases ts with
  | nil => exact hr
  | cons y ts =>
    exact absurd (hn y (by simp)) (kind_ne_newline_of_sheltered hsh (by simp))

theorem peek_inBody_of_eof (h : c.InValue begun modes opened m) (hf : Fits modes opened)
    (hx : x.Line) (hk : c.peek.kind = .eof) : (c.inBody x).peek.kind = .newline := by
  obtain ⟨rfl, rfl, hr⟩ := h.ended hf hk
  obtain ⟨t, ts, hafter, ht⟩ := hx.breaks
  have hrest : (c.inBody x).rest = [t] ++ ts := by
    rw [inBody, hr, hafter]
    rfl
  have hsees : Sees true t [t] := ⟨[], rfl, by simp, by simp [Token.hidden, ht]⟩
  rw [((h.inMode_inBody hx).read_sees hrest hsees).1, ht]

/-- Where newlines hide a token in one reading only, it is no star if no star comes next but for
newlines. -/
theorem kind_ne_star (h : c.InValue begun [] opened m) (hx : x.Line) {us : List Token}
    (hr : c.rest = us ++ [c.eof]) (hs : beginsWithStar us = false) :
    c.peek.kind ≠ .star ∧ (c.inBody x).peek.kind ≠ .star := by
  obtain ⟨ts, hr', hts, -⟩ := h.ahead
  obtain rfl : ts = us := (List.append_inj' (hr'.symm.trans hr) rfl).1
  have hhide {c' : Cursor} : ∀ y ∈ ts, c'.hides y → y.kind = .newline := by
    intro y hy hh
    simp only [hides, Bool.or_eq_true, Bool.and_eq_true, beq_iff_eq] at hh
    exact (hh.resolve_left (hts y hy).2).1
  constructor
  · intro hk
    rw [peek, hr] at hk
    have hnext := beginsWithStar_of_next hhide (by simp [hides, h.ends]) hk
    simp [hs] at hnext
  · intro hk
    obtain ⟨t, more, hafter, ht⟩ := hx.breaks
    have hrest : (c.inBody x).rest = ts ++ x.after := by rw [inBody, hr, List.dropLast_concat]
    rw [peek, hrest] at hk
    have hcount : (c.inBody x).newlinesCount = true := (h.inMode_inBody hx).newlines
    have hnext := beginsWithStar_of_next hhide (by simp [hafter, hides, ht, hcount]) hk
    simp [hs] at hnext

/-- In front of the closer of a bracket the value does not end. -/
theorem kind_ne_eof (h : c.InValue begun modes (b :: opened) m) (hf : Fits modes (b :: opened)) :
    c.peek.kind ≠ .eof :=
  fun hk => List.cons_ne_nil _ _ (h.ended hf hk).2.1

theorem same_open (h : c.InValue begun modes (b :: opened) m) (hf : Fits modes (b :: opened))
    (hx : x.Line) : c.Same x := h.same hf hx (h.kind_ne_eof hf)

end InValue

end Cursor

end HclSyntax
