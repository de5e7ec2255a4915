import Mathlib.Data.List.Induction
import HclSyntax.Proofs.Delivery
import HclSyntax.Proofs.Depth.Run
import HclSyntax.Proofs.ItemEnd

namespace HclSyntax

/-- How many brackets that `closer` ends are opened among the tokens. -/
def openings (closer : TokenKind) (ts : List Token) : Nat := ts.countP (·.kind.opens closer)

/-- How many brackets `closer` ends among the tokens. -/
def closings (closer : TokenKind) (ts : List Token) : Nat := ts.countP (·.kind == closer)

/-- The tokens close what they open of the brackets that `closer` ends, and so many more that were
opened before. -/
def ClosesFor (closer : TokenKind) (n : Nat) (ts : List Token) : Prop :=
  closes (ts.filter fun t => t.kind.opens closer || t.kind == closer) (List.replicate n closer)

/-- The brackets that `closer` ends are balanced among the tokens, whatever the others are. -/
def BalancedFor (closer : TokenKind) (ts : List Token) : Prop := ClosesFor closer 0 ts

instance (closer : TokenKind) (ts : List Token) : Decidable (BalancedFor closer ts) :=
  inferInstanceAs (Decidable (_ = true))

section
variable {closer k : TokenKind} {t : Token} {ts ts' : List Token} {n : Nat}

theorem TokenKind.opens_iff : k.opens closer ↔ k.isOpener ∧ k.opposite = closer := by
  simp [TokenKind.opens]

theorem TokenKind.opens_closer (h : k.isCloser) : k.opens closer = false := by
  simp [TokenKind.opens, TokenKind.not_isOpener h]

theorem openings_append :
    openings closer (ts ++ ts') = openings closer ts + openings closer ts' := List.countP_append

theorem closings_append :
    closings closer (ts ++ ts') = closings closer ts + closings closer ts' := List.countP_append

theorem openings_singleton :
    openings closer [t] = if t.kind.opens closer then 1 else 0 := List.countP_singleton

theorem closings_singleton : closings closer [t] = if t.kind = closer then 1 else 0 := by
  simp [closings, List.countP_singleton]

/-- What one token leaves to be closed. -/
theorem ClosesFor.tail (hk : closer.isCloser) (h : ClosesFor closer n (t :: ts)) :
    ∃ m, ClosesFor closer m ts ∧ n + openings closer [t] = m + closings closer [t] := by
  rw [ClosesFor, List.filter_cons] at h
  rw [openings_singleton, closings_singleton]
  by_cases ho : t.kind.opens closer
  · obtain ⟨hopener, hopposite⟩ := TokenKind.opens_iff.mp ho
    have hne : t.kind ≠ closer := by
      rintro rfl
      simp [TokenKind.opens_closer hk] at ho
    rw [if_pos (by simp [ho]), closes_opener hopener, hopposite, ← List.replicate_succ] at h
    exact ⟨n + 1, h, by simp [ho, hne]⟩
  by_cases hc : t.kind = closer
  · rw [if_pos (by simp [hc])] at h
    rcases closes_cons h with ⟨hopener, -⟩ | ⟨-, below, hbelow, hts⟩ | ⟨hflat, -⟩
    · simp [hc, TokenKind.not_isOpener hk] at hopener
    · obtain ⟨m, rfl⟩ : ∃ m, n = m + 1 := Nat.exists_eq_succ_of_ne_zero (by
        rintro rfl
        cases hbelow)
      obtain rfl := (List.cons.inj hbelow).2
      exact ⟨m, hts, by rw [if_neg ho, if_pos hc]⟩
    · exact absurd hk (hc ▸ Bool.eq_false_iff.mp hflat.2)
  · rw [if_neg (by simp [ho, hc])] at h
    exact ⟨n, h, by rw [if_neg ho, if_neg hc]⟩

/-- What some tokens leave to be closed. -/
theorem ClosesFor.behind (hk : closer.isCloser) (h : ClosesFor closer n (ts ++ ts')) :
    ∃ m, ClosesFor closer m ts' ∧ n + openings closer ts = m + closings closer ts := by
  induction ts generalizing n with
  | nil => exact ⟨n, h, rfl⟩
  | cons t ts ih =>
    obtain ⟨j, hj, ht⟩ := ClosesFor.tail hk h
    obtain ⟨m, hm, hts⟩ := ih hj
    refine ⟨m, hm, ?_⟩
    rw [← List.singleton_append, openings_append, closings_append]
    omega

theorem BalancedFor.openings_eq (hk : closer.isCloser) (h : BalancedFor closer ts) :
    openings closer ts = closings closer ts := by
  rw [BalancedFor, ← List.append_nil ts] at h
  obtain ⟨m, hm, hcount⟩ := h.behind hk
  obtain rfl : m = 0 := by simpa [ClosesFor, closes] using hm
  simpa using hcount

/-- No bracket is closed before it is opened. -/
theorem BalancedFor.closings_le (hk : closer.isCloser) (h : BalancedFor closer (ts ++ ts')) :
    closings closer ts ≤ openings closer ts := by
  obtain ⟨m, -, hcount⟩ := ClosesFor.behind hk h
  omega

end

namespace Cursor

/-- The tokens from a place on. Behind all of them the end of the file is read again. -/
def upcoming (c : Cursor) : List Token := if c.rest = [] then [c.eof] else c.rest

/-- The tokens among some that are seen where newlines count as they do at a place. -/
def seen (c : Cursor) (ts : List Token) : List Token := ts.filter fun t => !c.hides t

variable {c : Cursor} {l : TokenList} {closer : TokenKind} {t : Token} {ts ts' : List Token}

theorem seen_append : c.seen (ts ++ ts') = c.seen ts ++ c.seen ts' := List.filter_append ..

theorem seen_singleton (h : c.hides t = false) : c.seen [t] = [t] := by simp [seen, h]

theorem seen_hidden (h : ∀ t ∈ ts, c.hides t = true) : c.seen ts = [] := by simpa [seen] using h

/-- Brackets are never hidden. -/
theorem hides_bracket (h : t.kind.isOpener ∨ t.kind.isCloser) : c.hides t = false := by
  rw [Bool.eq_false_iff, ne_eq, hides_iff]
  rintro (hk | ⟨hk, -⟩) <;> simp [hk, TokenKind.isOpener, TokenKind.isCloser] at h

theorem openings_seen (ts : List Token) : openings closer (c.seen ts) = openings closer ts := by
  rw [openings, seen, List.countP_filter, openings]
  refine List.countP_congr fun t _ => ?_
  simp only [Bool.and_eq_true, Bool.not_eq_true', and_iff_left_iff_imp]
  exact fun h => hides_bracket (.inl (TokenKind.opens_iff.mp h).1)

theorem closings_seen (hk : closer.isCloser) (ts : List Token) :
    closings closer (c.seen ts) = closings closer ts := by
  rw [closings, seen, List.countP_filter, closings]
  refine List.countP_congr fun t _ => ?_
  simp only [Bool.and_eq_true, Bool.not_eq_true', and_iff_left_iff_imp, beq_iff_eq]
  rintro rfl
  exact hides_bracket (.inr hk)

/-- Where nothing is left, the end of the file was passed last. -/
theorem IsIn.head?_passed (h : c.IsIn l) (hr : c.rest = []) : c.passed.head? = some l.eof := by
  have hwhole := h.whole
  rw [hr, List.append_nil] at hwhole
  rw [← List.getLast?_reverse, hwhole, TokenList.toList, List.getLast?_concat]

/-- What a read returns is the first that is seen of what is ahead. -/
theorem IsIn.upcoming (h : c.IsIn l) : ∃ hidden, c.upcoming = hidden ++ c.peek :: c.advance.rest ∧
    (∀ t ∈ hidden, c.hides t = true) ∧ c.hides c.peek = false ∧
      c.advance.passed.head? = some c.peek := by
  have heof : c.eof.kind = .eof := h.eof ▸ l.eof_kind
  rcases h.ended.next with hr | ⟨t, ts, hd, hseen, hpeek, hrest, hpassed⟩
  · have hpeek : c.peek = c.eof := by simp [peek, hr]
    refine ⟨[], ?_, by simp, ?_, ?_⟩
    · simp [Cursor.upcoming, advance_of_rest_nil hr, hpeek, hr]
    · simp [hpeek, hides, heof]
    · rw [advance_of_rest_nil hr, hpeek, h.eof, h.head?_passed hr]
  · refine ⟨c.rest.takeWhile c.hides, ?_, fun t ht => List.mem_takeWhile_imp ht, hpeek ▸ hseen,
      hpeek ▸ hpassed⟩
    have hne : c.rest ≠ [] := by
      rintro hnil
      simp [hnil] at hd
    rw [Cursor.upcoming, if_neg hne, hpeek, hrest, ← hd, List.takeWhile_append_dropWhile]

/-- Behind a token that is not the end of the file something is left. -/
theorem IsIn.rest_ne_nil (h : c.IsIn l) (hk : c.peek.kind ≠ .eof) : c.advance.rest ≠ [] := by
  intro hnil
  obtain ⟨hidden, -, -, -, hpassed⟩ := h.upcoming
  rw [h.moves.head?_passed hnil] at hpassed
  exact hk (Option.some.inj hpassed ▸ l.eof_kind)

end Cursor

namespace Parser

/-- Whether a search for `closer` is over at `t`, behind the tokens `before`: at the end of the file,
or at a closer in front of which the brackets of its kind are closed as often as opened. -/
def StopsAt (closer : TokenKind) (before : List Token) (t : Token) : Prop :=
  t.kind = .eof ∨ t.kind = closer ∧ openings closer before = closings closer before

/-- Of the first tokens from a place on none that is seen ends a search for `closer`. -/
def NoStop (closer : TokenKind) (c : Cursor) (front : List Token) : Prop :=
  ∀ before x after, front = before ++ x :: after → c.hides x = false →
    ¬StopsAt closer (c.seen before) x

/-- The first token seen from a place on at which a search for `closer` is over is `t`, with `front`
in front of it and `back` behind. -/
structure FirstStop (closer : TokenKind) (c : Cursor) (front : List Token) (t : Token)
    (back : List Token) : Prop where
  split : c.upcoming = front ++ t :: back
  seen : c.hides t = false
  stops : StopsAt closer (c.seen front) t
  first : NoStop closer c front

variable {l : TokenList} {c c' : Cursor} {closer : TokenKind} {t t' : Token}
  {front front' back back' hidden : List Token} {depth : Nat}

/-- A search ends at one place only. -/
theorem FirstStop.unique (h : FirstStop closer c front t back)
    (h' : FirstStop closer c front' t' back') : front = front' ∧ t = t' ∧ back = back' := by
  have hsplit := h.split.symm.trans h'.split
  rcases List.append_eq_append_iff.mp hsplit with ⟨between, rfl, hb⟩ | ⟨between, rfl, hb⟩ <;>
    rcases between with _ | ⟨x, between⟩
  · exact ⟨by simp, List.cons.inj hb⟩
  · obtain ⟨rfl, -⟩ := List.cons.inj hb
    exact absurd h.stops (h'.first front t between rfl h.seen)
  · obtain ⟨rfl, rfl⟩ := List.cons.inj hb
    exact ⟨by simp, rfl, rfl⟩
  · obtain ⟨rfl, -⟩ := List.cons.inj hb
    exact absurd h'.stops (h.first front' t' between rfl h'.seen)

/-- Balanced tokens are passed as a whole. -/
theorem FirstStop.balanced {ts rest : List Token} (hk : closer.isCloser)
    (hr : c.rest = ts ++ t :: rest) (he : ∀ x ∈ ts, x.kind ≠ .eof) (hb : BalancedFor closer ts)
    (ht : t.kind = closer) : FirstStop closer c ts t rest where
  split := by simp [Cursor.upcoming, hr]
  seen := Cursor.hides_bracket (.inr (ht ▸ hk))
  stops := by
    refine .inr ⟨ht, ?_⟩
    rw [Cursor.openings_seen, Cursor.closings_seen hk, hb.openings_eq hk]
  first before x after hsplit _ := by
    subst hsplit
    rintro (heof | ⟨hx, hcount⟩)
    · exact he x (by simp) heof
    · -- with this closer there would be one too many
      rw [Cursor.openings_seen, Cursor.closings_seen hk] at hcount
      rw [← List.singleton_append, ← List.append_assoc] at hb
      have hle := hb.closings_le hk
      rw [openings_append, closings_append, openings_singleton, closings_singleton, if_pos hx, hx,
        TokenKind.opens_closer hk] at hle
      simp only [Bool.false_eq_true, if_false] at hle
      omega

theorem NoStop.concat (h : NoStop closer c front)
    (ht : c.hides t = false → ¬StopsAt closer (c.seen front) t) :
    NoStop closer c (front ++ [t]) := by
  intro before x after hsplit hx
  rcases List.eq_nil_or_concat after with rfl | ⟨after, y, rfl⟩
  · obtain ⟨rfl, hlast⟩ := List.append_inj' hsplit rfl
    obtain rfl := (List.cons.inj hlast).1
    exact ht hx
  · have hfront : front ++ [t] = (before ++ x :: after) ++ [y] := by simpa using hsplit
    exact h before x after (List.append_inj' hfront rfl).1 hx

theorem NoStop.append_hidden (h : NoStop closer c front)
    (hhidden : ∀ x ∈ hidden, c.hides x = true) : NoStop closer c (front ++ hidden) := by
  induction hidden using List.reverseRecOn with
  | nil => simpa using h
  | append_singleton hidden x ih =>
    obtain ⟨hhidden, hx⟩ := List.forall_mem_append.mp hhidden
    rw [← List.append_assoc]
    refine (ih hhidden).concat fun hseen => ?_
    simp [hx x (by simp)] at hseen

/-- A search for `closer` that began at `c` goes on at `c'`, inside so many brackets of its kind. -/
structure Searching (l : TokenList) (closer : TokenKind) (c : Cursor) (depth : Nat) (c' : Cursor) :
    Prop where
  place : c'.IsIn l
  modes : c'.modes = c.modes
  way : ∃ front, c.upcoming = front ++ c'.upcoming ∧ NoStop closer c front ∧
    openings closer (c.seen front) = closings closer (c.seen front) + depth

/-- A search for `closer` that began at `c` is over, behind the token at which it stops. -/
def Found (closer : TokenKind) (c c' : Cursor) : Prop :=
  ∃ front t, FirstStop closer c front t c'.rest ∧ c'.passed.head? = some t

section
variable (h : Searching l closer c depth c')
include h

/-- The next token in a search, and what was seen in front of it. -/
theorem Searching.next : ∃ front, c.upcoming = front ++ c'.peek :: c'.advance.rest ∧
    NoStop closer c front ∧ c.hides c'.peek = false ∧
      openings closer (c.seen front) = closings closer (c.seen front) + depth := by
  obtain ⟨hplace, hmodes, front, hahead, hno, hcount⟩ := h
  obtain ⟨hidden, hsplit, hhidden, hseen, -⟩ := hplace.upcoming
  have hhides : c'.hides = c.hides := by
    funext t
    rw [Cursor.hides, Cursor.newlinesCount, hmodes]
    rfl
  rw [hhides] at hhidden hseen
  refine ⟨front ++ hidden, by simp [hahead, hsplit], hno.append_hidden hhidden, hseen, ?_⟩
  rwa [Cursor.seen_append, Cursor.seen_hidden hhidden, List.append_nil]

/-- Outside of brackets a closer ends the search, and the end of the file does anywhere. -/
theorem Searching.found (hs : c'.peek.kind = .eof ∨ c'.peek.kind = closer ∧ depth = 0) :
    Found closer c c'.advance := by
  obtain ⟨front, hahead, hno, hseen, hcount⟩ := h.next
  obtain ⟨-, -, -, -, hpassed⟩ := h.place.upcoming
  refine ⟨front, c'.peek, ⟨hahead, hseen, hs.imp_right fun ⟨hkind, hdepth⟩ => ⟨hkind, ?_⟩, hno⟩,
    hpassed⟩
  rw [hcount, hdepth, Nat.add_zero]

/-- Past any other token the search goes on, inside one bracket more or less if it is one. -/
theorem Searching.pass {m : Nat} (he : c'.peek.kind ≠ .eof)
    (hc : c'.peek.kind = closer → depth ≠ 0)
    (hm : openings closer [c'.peek] + depth = closings closer [c'.peek] + m) :
    Searching l closer c m c'.advance := by
  obtain ⟨front, hahead, hno, hseen, hcount⟩ := h.next
  have hs : ¬StopsAt closer (c.seen front) c'.peek := by
    rintro (heof | ⟨hkind, heq⟩)
    · exact he heof
    · exact hc hkind (by omega)
  refine ⟨h.place.moves, c'.reaches_advance.modes.trans h.modes, front ++ [c'.peek], ?_,
    hno.concat fun _ => hs, ?_⟩
  · rw [hahead, Cursor.upcoming, if_neg (h.place.rest_ne_nil he), List.append_assoc,
      List.singleton_append]
  · rw [Cursor.seen_append, Cursor.seen_singleton hseen, openings_append, closings_append]
    omega

theorem ends_skipPastStep (hk : closer.isCloser) :
    Ends (skipPastStep closer depth) c' fun r c'' =>
      if r.2 then Searching l closer c r.1 c'' else Found closer c c'' := by
  obtain ⟨heof, hclose, hopen⟩ := countedAs_eq c'.peek.kind hk
  rw [← TokenKind.opens_iff] at hopen
  refine arrives_read_bind ?_
  dsimp only
  split
  · rename_i he
    exact arrives_pure (h.found (.inl (heof.mp he)))
  rename_i hne
  have he : c'.peek.kind ≠ .eof := fun hkind => hne (heof.mpr hkind)
  split
  · rename_i hc
    have hkind := hclose.mp hc
    cases depth with
    | zero => exact arrives_pure (h.found (.inr ⟨hkind, rfl⟩))
    | succ depth =>
      refine arrives_pure (h.pass he (fun _ => Nat.succ_ne_zero depth) ?_)
      rw [openings_singleton, closings_singleton, if_pos hkind, hkind, TokenKind.opens_closer hk]
      simp only [Bool.false_eq_true, if_false]
      omega
  rename_i hother
  have hkind : c'.peek.kind ≠ closer := fun hkind => hother (hclose.mpr hkind)
  split
  · rename_i ho
    refine arrives_pure (h.pass he (fun hc => absurd hc hkind) ?_)
    rw [openings_singleton, closings_singleton, if_neg hkind, if_pos (hopen.mp ho)]
    omega
  · rename_i ho
    refine arrives_pure (h.pass he (fun hc => absurd hc hkind) ?_)
    rw [openings_singleton, closings_singleton, if_neg hkind, if_neg fun hk => ho (hopen.mpr hk)]

end

theorem ends_skipPast (hk : closer.isCloser) (hc : c.IsIn l) :
    Ends (skipPast closer) c fun _ c' => Found closer c c' := by
  refine still_recover.seq fun _ => ?_
  refine Arrives.seq (P := fun _ c' => Found closer c c') ?_ fun _ _ h => arrives_pure h
  exact .iterate (I := fun depth c' => Searching l closer c depth c') (advances_skipPastStep closer)
    (fun _ _ h => ends_skipPastStep h hk) (hc.eof ▸ l.eof_kind)
    ⟨hc, rfl, [], rfl, by simp [NoStop], rfl⟩

/-- A search for a closer is over at the first token seen that is the end of the file, or a closer
of this kind in front of which the brackets of this kind are closed as often as opened. It goes
just past this token, which callers take for its answer, and a recovery is noted. In front of tokens
that are balanced for this kind, it goes past the closer that follows them, whatever other brackets
are among them. -/
theorem skipPast_stops_at_closer (hc : c.IsIn l) (hk : closer.isCloser) (recovering : Bool) :
    let s := (skipPast closer ⟨c, recovering⟩).state
    s.recovering = true ∧ c.Reaches s.cursor ∧
    (∃ front t, FirstStop closer c front t s.cursor.rest ∧ s.cursor.passed.head? = some t ∧
      (previousRange s).value = t.range) ∧
    ∀ ts t rest, c.rest = ts ++ t :: rest → (∀ x ∈ ts, x.kind ≠ .eof) → BalancedFor closer ts →
      t.kind = closer → s.cursor = { c with passed := t :: (ts.reverse ++ c.passed), rest } := by
  intro s
  have hreaches : c.Reaches s.cursor := framed.skipPast closer ⟨c, recovering⟩
  obtain ⟨front, t, hfirst, hpassed⟩ := ends_skipPast hk hc recovering fun _ _ => trivial
  refine ⟨sticky.skipPast closer ⟨c, true⟩ rfl, hreaches, ⟨front, t, hfirst, hpassed, ?_⟩, ?_⟩
  · change (s.cursor.passed.headD s.cursor.peek).range = t.range
    rw [List.headD_eq_head?_getD, hpassed]
    rfl
  · intro ts t' rest hr he hb ht
    obtain ⟨-, -, hrest⟩ := hfirst.unique (.balanced hk hr he hb ht)
    have hsplit : c.rest = (ts ++ [t']) ++ s.cursor.rest := by
      rw [hrest]
      simpa using hr
    have hcursor := hreaches.eq_of_rest hsplit
    rw [hrest] at hcursor
    simpa using hcursor

/-- In front of a directive that is closed around an open bracket, with an end of a sequence of its
own behind it. -/
def openSequence : TokenList where
  body := [.directive, .openBracket, .sequenceEnd, .sequenceEnd, .identifier].map mark
  eof := mark .eof
  eof_kind := rfl

theorem openSequence_is_left : (Cursor.ofTokens openSequence).IsIn openSequence ∧
    TokenKind.sequenceEnd.isCloser ∧
    BalancedFor .sequenceEnd ([.directive, .openBracket, .sequenceEnd].map mark) ∧
    (skipPast .sequenceEnd ⟨.ofTokens openSequence, false⟩).state.cursor.rest =
      [.identifier, .eof].map mark := by
  have hc : (Cursor.ofTokens openSequence).IsIn openSequence := ⟨rfl, rfl⟩
  have hb : BalancedFor .sequenceEnd ([.directive, .openBracket, .sequenceEnd].map mark) := by
    decide
  have hk : TokenKind.sequenceEnd.isCloser := rfl
  obtain ⟨-, -, -, hskip⟩ := skipPast_stops_at_closer hc hk false
  have hcursor := hskip _ (mark .sequenceEnd) ([.identifier, .eof].map mark) rfl (by decide) hb rfl
  exact ⟨hc, hk, hb, by rw [hcursor]⟩

end Parser

end HclSyntax
