import HclSyntax.Proofs.Range.Tree
import HclSyntax.Proofs.Termination

namespace HclSyntax

namespace Cursor

variable {c c' c'' : Cursor}

/-- Where the token passed last begins. -/
def last (c : Cursor) : Nat := (c.passed.head?.map (·.range.lo)).getD 0

/-- Where the token passed last ends. -/
def behind (c : Cursor) : Nat := (c.passed.head?.map (·.range.hi)).getD 0

/-- Where the next token begins. -/
def ahead (c : Cursor) : Nat := (c.rest.headD c.eof).range.lo

/-- The tokens of the source do not overlap. -/
structure InOrder (c : Cursor) : Prop where
  whole : c.Whole
  forward : ∀ t ∈ c.passed.reverse ++ c.rest, t.range.lo ≤ t.range.hi
  apart : (c.passed.reverse ++ c.rest).Pairwise fun t u => t.range.hi ≤ u.range.lo

/-- A place that is not before `c`, in any mode. -/
structure Later (c c' : Cursor) : Prop where
  inOrder : c'.InOrder
  position : c.position ≤ c'.position
  last : c.last ≤ c'.last
  behind : c.behind ≤ c'.behind
  ahead : c.ahead ≤ c'.ahead

theorem InOrder.refl (h : c.InOrder) : c.Later c := by
  constructor <;> first | exact h | exact Nat.le_refl _

theorem Later.trans (h : c.Later c') (h' : c'.Later c'') : c.Later c'' :=
  ⟨h'.inOrder, Nat.le_trans h.position h'.position, Nat.le_trans h.last h'.last,
    Nat.le_trans h.behind h'.behind, Nat.le_trans h.ahead h'.ahead⟩

theorem InOrder.enter (h : c.InOrder) (newlines : Bool) : (c.enter newlines).InOrder :=
  ⟨h.whole, h.forward, h.apart⟩

theorem InOrder.leave (h : c.InOrder) : c.leave.InOrder := ⟨h.whole, h.forward, h.apart⟩

theorem Later.leave {newlines : Bool} (h : (c.enter newlines).Later c') : c.Later c'.leave :=
  ⟨h.inOrder.leave, h.position, h.last, h.behind, h.ahead⟩

/-- What is passed lies before what is left. -/
theorem InOrder.before {t : Token} {rest : List Token} (h : c.InOrder) (hr : c.rest = t :: rest) :
    c.last ≤ t.range.lo ∧ c.behind ≤ t.range.lo ∧ t.range.lo ≤ t.range.hi := by
  obtain ⟨-, hf, ha⟩ := h
  have ht := hf t (by simp [hr])
  rcases hp : c.passed with _ | ⟨u, passed⟩
  · simp [last, behind, hp, ht]
  · have hu := hf u (by simp [hp])
    have hut := (List.pairwise_append.mp ha).2.2 u (by simp [hp]) t (by simp [hr])
    simp only [last, behind, hp, List.head?_cons, Option.map_some, Option.getD_some]
    omega

/-- One token further. -/
theorem InOrder.pass {t : Token} {rest : List Token} (h : c.InOrder) (hr : c.rest = t :: rest) :
    c.Later { c with passed := t :: c.passed, rest } := by
  have ⟨hl, hb, ht⟩ := h.before hr
  have hall : (t :: c.passed).reverse ++ rest = c.passed.reverse ++ c.rest := by simp [hr]
  refine ⟨⟨⟨?_, h.whole.2⟩, ?_, ?_⟩, Nat.le_succ _, hl, Nat.le_trans hb ht, ?_⟩
  · rw [hall]
    exact h.whole.1
  · rw [hall]
    exact h.forward
  · rw [hall]
    exact h.apart
  rw [ahead, hr]
  cases rest with
  | nil =>
    obtain rfl : t = c.eof := by simpa [hr] using h.whole.1
    exact Nat.le_refl _
  | cons u rest =>
    have hrest := (List.pairwise_append.mp h.apart).2.1
    rw [hr] at hrest
    exact Nat.le_trans ht (List.rel_of_pairwise_cons hrest List.mem_cons_self)

theorem InOrder.reaches (h : c.InOrder) (hr : c.Reaches c') : c.Later c' := by
  obtain ⟨hmodes, heof, ts, hrest, hpassed⟩ := hr
  obtain ⟨passed', rest', eof', modes'⟩ := c'
  obtain rfl : modes' = c.modes := hmodes
  obtain rfl : eof' = c.eof := heof
  obtain rfl : passed' = ts.reverse ++ c.passed := hpassed
  induction ts generalizing c with
  | nil =>
    obtain rfl : rest' = c.rest := hrest.symm
    exact h.refl
  | cons t ts ih =>
    have hp := h.pass hrest
    have hi := ih hp.inOrder rfl
    simp only [List.reverse_cons, List.append_assoc, List.singleton_append]
    exact hp.trans hi

/-- The next token that is seen stands behind others that are not, unless nothing is left. Then it
is the end of the file, which was passed last. -/
theorem InOrder.split (h : c.InOrder) : (c.rest = [] ∧ c.passed.head? = some c.eof) ∨
    ∃ hidden rest, c.rest = hidden ++ c.peek :: rest ∧
      c.advance = { c with passed := c.peek :: (hidden.reverse ++ c.passed), rest } := by
  have hsplit : c.rest.takeWhile c.hides ++ c.rest.dropWhile c.hides = c.rest :=
    List.takeWhile_append_dropWhile
  rcases hd : c.rest.dropWhile c.hides with _ | ⟨t, rest⟩
  · left
    have hlast := h.whole.1
    rcases List.eq_nil_or_concat' c.rest with hr | ⟨ts, t, hr⟩
    · rw [hr, List.append_nil, List.getLast?_reverse] at hlast
      exact ⟨hr, hlast⟩
    · -- the end of the file is never hidden
      obtain rfl : t = c.eof := by simpa [hr] using hlast
      rw [hd, List.append_nil] at hsplit
      have hhides := List.mem_takeWhile_imp (p := c.hides) (x := c.eof) (by rw [hsplit, hr]; simp)
      simp [hides, h.whole.2] at hhides
  · have hpeek : c.peek = t := by rw [peek, hd]; rfl
    refine .inr ⟨c.rest.takeWhile c.hides, rest, ?_, ?_⟩
    · rw [hpeek, ← hd, hsplit]
    · simp [advance, hd, hpeek]

/-- Where the next token that is seen lies. -/
structure Next (c : Cursor) : Prop where
  ahead : c.ahead ≤ c.peek.range.lo
  forward : c.peek.range.lo ≤ c.peek.range.hi
  last : c.last ≤ c.peek.range.lo
  behind : c.behind ≤ c.peek.range.hi
  apart : c.peek.kind ≠ .eof → c.behind ≤ c.peek.range.lo

/-- What is so once that token is passed. -/
structure Passed (c : Cursor) : Prop extends Later c c.advance where
  begun : 0 < c.advance.position
  last_eq : c.advance.last = c.peek.range.lo
  behind_eq : c.advance.behind = c.peek.range.hi
  peek_ahead : c.peek.range.lo ≤ c.advance.ahead
  beyond : c.peek.kind ≠ .eof → c.peek.range.hi ≤ c.advance.ahead

theorem InOrder.next (h : c.InOrder) : c.Next ∧ c.Passed := by
  have hlater := h.reaches c.reaches_advance
  rcases h.split with ⟨hr, hlast⟩ | ⟨hidden, rest, hr, ha⟩
  · have hpeek : c.peek = c.eof := by simp [peek, hr]
    have hahead : c.ahead = c.eof.range.lo := by simp [ahead, hr]
    have hadvance : c.advance = c := by
      obtain ⟨passed, _, eof, modes⟩ := c
      obtain rfl : _ = [] := hr
      rfl
    have hl : c.last = c.eof.range.lo := by simp [last, hlast]
    have hb : c.behind = c.eof.range.hi := by simp [behind, hlast]
    have hf := h.forward c.eof (by simp [List.mem_of_head? hlast])
    have hk : ¬c.eof.kind ≠ .eof := not_not_intro h.whole.2
    refine ⟨?_, ⟨hlater, ?_, ?_, ?_, ?_, ?_⟩⟩
    · constructor <;> rw [hpeek] <;> first | omega | exact fun h => absurd h hk
    · rw [hadvance, position, List.length_pos_iff_exists_mem]
      exact ⟨_, List.mem_of_head? hlast⟩
    · rw [hadvance, hpeek, hl]
    · rw [hadvance, hpeek, hb]
    · rw [hadvance, hpeek, hahead]
    · exact fun hne => absurd (hpeek ▸ hne) hk
  · -- first the hidden tokens are passed, then the one that is seen
    let c₁ : Cursor := { c with passed := hidden.reverse ++ c.passed, rest := c.peek :: rest }
    have hhidden : c.Later c₁ := h.reaches ⟨rfl, rfl, hidden, hr, rfl⟩
    have hpass : c₁.Later c.advance := ha ▸ hhidden.inOrder.pass rfl
    obtain ⟨hl, hb, hf⟩ := hhidden.inOrder.before (t := c.peek) rfl
    have hend : c.peek.kind ≠ .eof → c.peek.range.hi ≤ c.advance.ahead := by
      intro hk
      rcases hrest : rest with _ | ⟨u, rest⟩
      · have hlast := h.whole.1
        rw [hr, hrest] at hlast
        exact absurd (by simp_all [h.whole.2]) hk
      · have hnext : c.advance.rest = u :: rest := by rw [ha, hrest]
        have := hpass.inOrder.before hnext
        have hbehind : c.advance.behind = c.peek.range.hi := by rw [ha]; rfl
        have hahead : c.advance.ahead = u.range.lo := by rw [ha, hrest]; rfl
        omega
    exact ⟨⟨hhidden.ahead, hf, Nat.le_trans hhidden.last hl,
        Nat.le_trans (Nat.le_trans hhidden.behind hb) hf, fun _ => Nat.le_trans hhidden.behind hb⟩,
      ⟨hlater, by rw [ha]; exact Nat.succ_pos _, by rw [ha]; rfl, by rw [ha]; rfl, hpass.ahead, hend⟩⟩

/-- Going on in the same mode, either nothing that is seen is passed, or first the next token. -/
theorem Reaches.peek_or (h : c.Reaches c') : c'.peek = c.peek ∨ c.advance.Reaches c' := by
  obtain ⟨hmodes, heof, ts, hr, hp⟩ := h
  have hhides : c'.hides = c.hides := by
    funext t
    simp [hides, newlinesCount, hmodes]
  rcases hd : ts.dropWhile c.hides with _ | ⟨t, others⟩
  · left
    have hts := List.dropWhile_eq_nil_iff.mp hd
    rw [peek, peek, hr, List.dropWhile_append_of_pos hts, hhides, heof]
  · right
    have hsplit : ts.takeWhile c.hides ++ t :: others = ts := hd ▸ List.takeWhile_append_dropWhile
    have hdrop : c.rest.dropWhile c.hides = t :: (others ++ c'.rest) := by
      rw [hr, List.dropWhile_append, hd]
      simp
    have htake : c.rest.takeWhile c.hides = ts.takeWhile c.hides := by
      have h := List.takeWhile_append_dropWhile (p := c.hides) (l := c.rest)
      rw [hdrop, hr] at h
      nth_rewrite 2 [← hsplit] at h
      simpa [hr] using h
    have ha : c.advance = { c with passed := t :: (ts.takeWhile c.hides).reverse ++ c.passed,
                                   rest := others ++ c'.rest } := by
      simp [advance, hdrop, htake]
    refine ⟨by rw [ha, hmodes], by rw [ha, heof], others, by rw [ha], ?_⟩
    have hrev := congrArg List.reverse hsplit
    simp only [List.reverse_append, List.reverse_cons] at hrev
    rw [ha, hp, ← hrev]
    simp

/-- A place that is not before `c`, in the same mode. What is next there is not before it, either. -/
structure Further (c c' : Cursor) : Prop extends Later c c' where
  peek_lo : c.peek.range.lo ≤ c'.peek.range.lo
  peek_hi : c.peek.range.hi ≤ c'.peek.range.hi

theorem InOrder.further (h : c.InOrder) (hr : c.Reaches c') : c.Further c' := by
  have hl := h.reaches hr
  rcases hr.peek_or with heq | hr
  · exact ⟨hl, (congrArg (·.range.lo) heq).ge, (congrArg (·.range.hi) heq).ge⟩
  · obtain ⟨-, hp⟩ := h.next
    have hl' := hp.inOrder.reaches hr
    obtain ⟨hnext, -⟩ := hl'.inOrder.next
    refine ⟨hl, ?_, ?_⟩
    · exact Nat.le_trans hp.peek_ahead (Nat.le_trans hl'.ahead hnext.ahead)
    · exact hp.behind_eq ▸ Nat.le_trans hl'.behind hnext.behind

theorem InOrder.skip (h : c.InOrder) : c.Further c.advance := h.further c.reaches_advance

theorem Further.trans (h : c.Further c') (h' : c'.Further c'') : c.Further c'' :=
  ⟨h.toLater.trans h'.toLater, Nat.le_trans h.peek_lo h'.peek_lo,
    Nat.le_trans h.peek_hi h'.peek_hi⟩

theorem previousRange_of_begun (h : 0 < c.position) :
    c.previousRange.lo = c.last ∧ c.previousRange.hi = c.behind := by
  rcases hp : c.passed with _ | ⟨t, passed⟩
  · simp [position, hp] at h
  · simp [previousRange, last, behind, hp]

theorem InOrder.last_le (h : c.InOrder) : c.last ≤ c.behind := by
  rcases hp : c.passed with _ | ⟨t, passed⟩
  · simp [last, hp]
  · have := h.forward t (by simp [hp])
    simpa [last, behind, hp] using this

/-- Nothing before the next token is further than that. -/
theorem InOrder.previous (h : c.InOrder) :
    c.previousRange.lo ≤ c.peek.range.lo ∧ c.previousRange.hi ≤ c.peek.range.hi := by
  obtain ⟨hnext, -⟩ := h.next
  by_cases hp : 0 < c.position
  · obtain ⟨hl, hh⟩ := previousRange_of_begun hp
    exact ⟨hl ▸ hnext.last, hh ▸ hnext.behind⟩
  · have hempty : c.passed = [] := by simpa [position] using hp
    simp [previousRange, hempty]

/-- The place is behind a token that is not the end of the file. -/
structure Follows (t : Token) (c : Cursor) : Prop where
  inOrder : c.InOrder
  begun : 0 < c.position
  forward : t.range.lo ≤ t.range.hi
  last : t.range.lo ≤ c.last
  behind : t.range.hi ≤ c.behind
  ahead : t.range.hi ≤ c.ahead

theorem InOrder.follows (h : c.InOrder) (hk : c.peek.kind ≠ .eof) : Follows c.peek c.advance := by
  obtain ⟨hnext, hp⟩ := h.next
  exact ⟨hp.inOrder, hp.begun, hnext.forward, hp.last_eq.ge, hp.behind_eq.ge, hp.beyond hk⟩

theorem Follows.enter {t : Token} (h : Follows t c) (newlines : Bool) :
    Follows t (c.enter newlines) :=
  ⟨h.inOrder.enter _, h.begun, h.forward, h.last, h.behind, h.ahead⟩

theorem Follows.leave {t : Token} (h : Follows t c) : Follows t c.leave :=
  ⟨h.inOrder.leave, h.begun, h.forward, h.last, h.behind, h.ahead⟩

/-- What is next lies behind the token. -/
theorem Follows.lo_le_peek {t : Token} (h : Follows t c) : t.range.lo ≤ c.peek.range.lo :=
  Nat.le_trans h.forward (Nat.le_trans h.ahead h.inOrder.next.1.ahead)

theorem Follows.later {t : Token} (h : Follows t c) (hl : c.Later c') : Follows t c' :=
  ⟨hl.inOrder, Nat.lt_of_lt_of_le h.begun hl.position, h.forward, Nat.le_trans h.last hl.last,
    Nat.le_trans h.behind hl.behind, Nat.le_trans h.ahead hl.ahead⟩

/-- The range from a token up to the one passed last. -/
theorem Follows.between {t : Token} (h : Follows t c) :
    (SourceRange.between t.range c.previousRange).lo = t.range.lo ∧
      (SourceRange.between t.range c.previousRange).hi = c.behind := by
  obtain ⟨hl, hh⟩ := previousRange_of_begun h.begun
  have := h.last
  have := h.behind
  rw [SourceRange.lo_between, SourceRange.hi_between]
  omega

end Cursor

/-- The tokens stand in order and do not overlap. -/
def TokenList.Ordered (tokens : TokenList) : Prop :=
  (∀ t ∈ tokens.toList, t.range.start.byte ≤ t.range.stop.byte) ∧
    tokens.toList.IsChain fun t u => t.range.stop.byte ≤ u.range.start.byte

instance (tokens : TokenList) : Decidable tokens.Ordered := inferInstanceAs (Decidable (_ ∧ _))

theorem TokenList.Ordered.inOrder {tokens : TokenList} (h : tokens.splitLineComments.Ordered) :
    tokens.start.cursor.InOrder := by
  obtain ⟨hf, hchain⟩ := h
  have hf : ∀ t ∈ tokens.splitLineComments.toList, t.range.lo ≤ t.range.hi :=
    fun t ht => UInt32.le_iff_toNat_le.mp (hf t ht)
  -- tokens that do not overlap follow each other however many there are between them
  let R (t u : Token) : Prop :=
    t.range.lo ≤ t.range.hi ∧ t.range.hi ≤ u.range.lo ∧ u.range.lo ≤ u.range.hi
  have htrans : IsTrans Token R := ⟨fun t u v htu huv => by omega⟩
  have hR : tokens.splitLineComments.toList.IsChain R :=
    hchain.imp_of_mem_imp fun t u ht hu h => ⟨hf t ht, UInt32.le_iff_toNat_le.mp h, hf u hu⟩
  exact ⟨tokens.whole_start, hf, (List.isChain_iff_pairwise.mp hR).imp fun h => h.2.1⟩

namespace Expr

variable {e : Expr} {c c' : Cursor} {lo lo' : Nat}

/-- The expression lies behind `lo`, and all of its tokens are passed. -/
structure Shut (lo : Nat) (c : Cursor) (e : Expr) : Prop extends Spans lo c.behind e where
  lo_le : e.range.lo ≤ c.ahead

/-- The expression lies behind `lo`. A placeholder at its end is where the next token is. -/
structure Laid (lo : Nat) (c : Cursor) (e : Expr) : Prop extends Spans lo c.peek.range.hi e where
  lo_le : e.range.lo ≤ c.peek.range.lo
  known : e.Known → e.range.hi ≤ c.behind

theorem Shut.later (h : e.Shut lo c) (hl : c.Later c') : e.Shut lo c' :=
  ⟨h.toSpans.mono (Nat.le_refl _) hl.behind, Nat.le_trans h.lo_le hl.ahead⟩

theorem Shut.leave (h : e.Shut lo c) : e.Shut lo c.leave := ⟨h.toSpans, h.lo_le⟩

theorem Shut.laid (h : e.Shut lo c) (hc : c.InOrder) : e.Laid lo c := by
  obtain ⟨hnext, -⟩ := hc.next
  exact ⟨h.toSpans.mono (Nat.le_refl _) hnext.behind, Nat.le_trans h.lo_le hnext.ahead,
    fun _ => h.le_to⟩

theorem Laid.mono (h : e.Laid lo c) (hl : lo' ≤ lo) : e.Laid lo' c :=
  ⟨h.toSpans.mono hl (Nat.le_refl _), h.lo_le, h.known⟩

theorem Laid.further (h : e.Laid lo c) (hl : c.Further c') : e.Laid lo c' :=
  ⟨h.toSpans.mono (Nat.le_refl _) hl.peek_hi, Nat.le_trans h.lo_le hl.peek_lo,
    fun hk => Nat.le_trans (h.known hk) hl.behind⟩

/-- Once the next token is passed, so are all of the expression. -/
theorem Laid.shut (h : e.Laid lo c) (hl : c.advance.Later c') (hc : c.InOrder) : e.Shut lo c' := by
  obtain ⟨-, hp⟩ := hc.next
  refine ⟨h.toSpans.mono (Nat.le_refl _) ?_, ?_⟩
  · exact hp.behind_eq ▸ hl.behind
  · exact Nat.le_trans h.lo_le (Nat.le_trans hp.peek_ahead hl.ahead)

/-- A node from a token up to the place. -/
theorem Shut.of_follows {t : Token} (h : Cursor.Follows t c)
    (hr : e.range = .between t.range c.previousRange)
    (hc : ∀ x ∈ e.children, x.Shut t.range.lo c) : e.Shut t.range.lo c := by
  obtain ⟨hl, hh⟩ := h.between
  rw [← hr] at hl hh
  have hf := h.forward
  have hb := h.behind
  have ha := h.ahead
  refine ⟨⟨⟨nests_of_children fun x hx => ?_, hl.ge, hh.le⟩, by omega⟩, by omega⟩
  exact (hc x hx).toInside.mono hl.le hh.ge

end Expr

end HclSyntax
