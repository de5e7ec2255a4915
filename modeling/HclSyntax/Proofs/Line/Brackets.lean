import HclSyntax.Cursor

namespace HclSyntax

/-- Whether the tokens close what they open and, in this order, the brackets that wait for
`pending`. -/
def closes : List Token → List TokenKind → Bool
  | [], pending => pending.isEmpty
  | t :: ts, pending =>
    if t.kind.isOpener then closes ts (t.kind.opposite :: pending)
    else if t.kind.isCloser then pending.head? == some t.kind && closes ts pending.tail
    else closes ts pending

/-- Whether a token may stand in a line. -/
def Token.inLine (t : Token) : Bool :=
  t.kind != .newline && t.kind != .eof && t.kind != .comment && t.kind != .directive

/-- What a list of tokens has around it in a longer one. -/
structure Surroundings where
  /-- The tokens passed before it, the last one first. -/
  before : List Token
  after : List Token
  eof : Token

namespace Cursor

/-- The same place in a longer list. -/
def widen (c : Cursor) (x : Surroundings) : Cursor :=
  ⟨c.passed ++ x.before, c.rest ++ x.after, x.eof, c.modes⟩

theorem read_of_not_hides {c : Cursor} {t : Token} {rest : List Token} (hr : c.rest = t :: rest)
    (hh : c.hides t = false) :
    c.peek = t ∧ c.advance = ⟨t :: c.passed, rest, c.eof, c.modes⟩ := by
  have hd : (t :: rest).dropWhile c.hides = t :: rest := by simp [hh]
  have ht : (t :: rest).takeWhile c.hides = [] := by simp [hh]
  constructor
  · rw [peek, hr, hd]
    rfl
  · simp only [advance, hr, hd, ht, List.reverse_nil]
    rfl

/-- A place in a line, not in front of its first token: the closers that are ahead include
`closers`, in this order, and at most `bound` tokens are left. -/
structure Within (c : Cursor) (modes : List Bool) (closers : List TokenKind) (bound : Nat) :
    Prop where
  modes_eq : c.modes = modes
  passed : c.passed ≠ []
  ahead : ∃ ts newline pending, c.rest = ts ++ [newline] ∧ newline.kind = .newline ∧
    (∀ t ∈ ts, t.inLine) ∧ closes ts pending ∧ closers.Sublist pending
  remaining_le : c.remaining ≤ bound

/-- The place behind a line. -/
structure Behind (c : Cursor) (modes : List Bool) : Prop where
  modes_eq : c.modes = modes
  rest : c.rest = []

theorem Behind.widen {c : Cursor} {modes : List Bool} (h : c.Behind modes) (x : Surroundings) :
    c.widen x = ⟨c.passed ++ x.before, x.after, x.eof, modes⟩ := by
  rw [Cursor.widen, h.rest, h.modes_eq]
  rfl

/-- In front of the newline nothing is hidden: newlines count, or a bracket is closed before it. -/
def Clear (modes : List Bool) (closers : List TokenKind) : Prop :=
  modes.headD true = true ∨ closers ≠ []

theorem clear_cons (modes : List Bool) (k : TokenKind) (closers : List TokenKind) :
    Clear modes (k :: closers) := .inr (List.cons_ne_nil _ _)

namespace Within

variable {c : Cursor} {modes : List Bool} {closers : List TokenKind} {k : TokenKind} {m m' : Nat}

theorem mono (h : c.Within modes closers m) (hm : m ≤ m') : c.Within modes closers m' :=
  ⟨h.modes_eq, h.passed, h.ahead, Nat.le_trans h.remaining_le hm⟩

theorem exact (h : c.Within modes closers m) : c.Within modes closers c.remaining :=
  ⟨h.modes_eq, h.passed, h.ahead, Nat.le_refl _⟩

/-- A bracket may be given up. -/
theorem weaken (h : c.Within modes (k :: closers) m) : c.Within modes closers m := by
  obtain ⟨ts, newline, pending, hr, hn, hts, hc, hs⟩ := h.ahead
  exact ⟨h.modes_eq, h.passed, ⟨ts, newline, pending, hr, hn, hts, hc,
    (List.sublist_cons_self k closers).trans hs⟩, h.remaining_le⟩

theorem enter (h : c.Within modes closers m) (newlines : Bool) :
    (c.enter newlines).Within (newlines :: modes) closers m :=
  ⟨by rw [← h.modes_eq]; rfl, h.passed, h.ahead, h.remaining_le⟩

theorem leave {newlines : Bool} (h : c.Within (newlines :: modes) closers m) :
    c.leave.Within modes closers m := by
  refine ⟨?_, h.passed, h.ahead, h.remaining_le⟩
  change c.modes.tail = modes
  rw [h.modes_eq]
  rfl

/-- A token is left: at least the newline. -/
theorem bound_pos (h : c.Within modes closers m) : ∃ j, m = j + 1 := by
  obtain ⟨ts, newline, -, hr, -⟩ := h.ahead
  have hle := h.remaining_le
  rw [remaining, hr, List.length_append, List.length_singleton] at hle
  exact ⟨m - 1, by omega⟩

/-- The next token is the first one that is left, and not hidden. -/
theorem next (h : c.Within modes closers m) (hs : Clear modes closers) :
    ∃ t rest, c.rest = t :: rest ∧ c.hides t = false ∧
      (t.kind = .newline ∧ rest = [] ∧ closers = [] ∨
        t.inLine ∧ ∃ ts newline pending, rest = ts ++ [newline] ∧ newline.kind = .newline ∧
          (∀ t ∈ ts, t.inLine) ∧ closes (t :: ts) pending ∧ closers.Sublist pending) := by
  obtain ⟨ts, newline, pending, hr, hn, hts, hc, hsub⟩ := h.ahead
  cases ts with
  | nil =>
    have hp : pending = [] := by simpa [closes] using hc
    have hk : closers = [] := by simpa [hp] using hsub
    have hm : c.newlinesCount = true := by
      have := hs.resolve_right (by simp [hk])
      rwa [newlinesCount, h.modes_eq]
    exact ⟨newline, [], hr, by simp [hides, hn, hm], .inl ⟨hn, rfl, hk⟩⟩
  | cons t ts =>
    have ht := hts t (by simp)
    have hhide : c.hides t = false := by
      simp only [Token.inLine, Bool.and_eq_true, bne_iff_ne] at ht
      simp [hides, ht.1.1.1, ht.1.2]
    exact ⟨t, ts ++ [newline], hr, hhide, .inr ⟨ht, ts, newline, pending, rfl, hn,
      fun x hx => hts x (by simp [hx]), hc, hsub⟩⟩

/-- What reading comes to where nothing is hidden. -/
theorem read (h : c.Within modes closers m) (hs : Clear modes closers) :
    ∃ rest, c.rest = c.peek :: rest ∧ c.advance = ⟨c.peek :: c.passed, rest, c.eof, c.modes⟩ ∧
      ∀ x, (c.widen x).peek = c.peek ∧ (c.widen x).advance = c.advance.widen x := by
  obtain ⟨t, rest, hr, hhide, -⟩ := h.next hs
  obtain ⟨hpeek, hadv⟩ := read_of_not_hides hr hhide
  rw [hpeek]
  refine ⟨rest, hr, hadv, fun x => ?_⟩
  have hwide : (c.widen x).rest = t :: (rest ++ x.after) := by simp [widen, hr]
  obtain ⟨hpeek', hadv'⟩ := read_of_not_hides hwide hhide
  rw [hpeek', hadv', hadv]
  exact ⟨rfl, rfl⟩

/-- The next token is the same in any mode. -/
theorem peek_enter {newlines : Bool} (h : c.Within modes closers m) (hs : Clear modes closers)
    (hs' : Clear (newlines :: modes) closers) : (c.enter newlines).peek = c.peek := by
  obtain ⟨rest, hr, -, -⟩ := h.read hs
  obtain ⟨rest', hr', -, -⟩ := (h.enter newlines).read hs'
  exact (List.cons.inj (hr'.symm.trans hr)).1

theorem peek_widen (h : c.Within modes closers m) (hs : Clear modes closers) (x : Surroundings) :
    (c.widen x).peek = c.peek := by
  obtain ⟨_, _, _, hx⟩ := h.read hs
  exact (hx x).1

theorem advance_widen (h : c.Within modes closers m) (hs : Clear modes closers)
    (x : Surroundings) : (c.widen x).advance = c.advance.widen x := by
  obtain ⟨_, _, _, hx⟩ := h.read hs
  exact (hx x).2

theorem previousRange_widen (h : c.Within modes closers m) (x : Surroundings) :
    (c.widen x).previousRange = c.previousRange := by
  have hp := h.passed
  unfold previousRange widen
  cases hc : c.passed with
  | nil => exact absurd hc hp
  | cons t ts => rfl

theorem kind_ne (h : c.Within modes closers m) (hs : Clear modes closers) :
    c.peek.kind ≠ .eof ∧ c.peek.kind ≠ .directive := by
  obtain ⟨rest, hr, -, -⟩ := h.read hs
  obtain ⟨t, rest', hr', -, ht⟩ := h.next hs
  obtain ⟨rfl, -⟩ := List.cons.inj (hr.symm.trans hr')
  rcases ht with ⟨hn, -⟩ | ⟨ht, -⟩
  · simp [hn]
  · simp only [Token.inLine, Bool.and_eq_true, bne_iff_ne] at ht
    exact ⟨ht.1.1.2, ht.2⟩

/-- A newline is only seen where no bracket is open. -/
theorem kind_ne_newline (h : c.Within modes (k :: closers) m) : c.peek.kind ≠ .newline := by
  obtain ⟨rest, hr, -, -⟩ := h.read (clear_cons modes k closers)
  obtain ⟨t, rest', hr', -, ht⟩ := h.next (clear_cons modes k closers)
  obtain ⟨rfl, -⟩ := List.cons.inj (hr.symm.trans hr')
  rcases ht with ⟨-, -, hc⟩ | ⟨ht, -⟩
  · exact absurd hc (List.cons_ne_nil _ _)
  · simp only [Token.inLine, Bool.and_eq_true, bne_iff_ne] at ht
    exact ht.1.1.1

/-- The newline is the last token of the line. -/
theorem newline (h : c.Within modes closers m) (hs : Clear modes closers)
    (hn : c.peek.kind = .newline) : c.advance.Behind modes := by
  obtain ⟨rest, hr, ha, -⟩ := h.read hs
  obtain ⟨t, rest', hr', -, ht⟩ := h.next hs
  obtain ⟨rfl, rfl⟩ := List.cons.inj (hr.symm.trans hr')
  rcases ht with ⟨-, rfl, -⟩ | ⟨ht, -⟩
  · rw [ha]
    exact ⟨h.modes_eq, rfl⟩
  · simp [Token.inLine, hn] at ht

/-- Past a token of the line: what is ahead closes what was pending, as the token leaves it. -/
theorem past {closers' : List TokenKind} (h : c.Within modes closers (m + 1))
    (hs : Clear modes closers) (hn : c.peek.kind ≠ .newline)
    (hc : ∀ pending, closers.Sublist pending → (c.peek.kind.isOpener = true →
        closers'.Sublist (c.peek.kind.opposite :: pending)) ∧
      (c.peek.kind.isOpener = false → c.peek.kind.isCloser = true →
        pending.head? = some c.peek.kind → closers'.Sublist pending.tail) ∧
      (c.peek.kind.isCloser = false → c.peek.kind.isOpener = false → closers'.Sublist pending)) :
    c.advance.Within modes closers' m := by
  obtain ⟨rest, hr, ha, -⟩ := h.read hs
  obtain ⟨t, rest', hr', -, ht⟩ := h.next hs
  obtain ⟨rfl, rfl⟩ := List.cons.inj (hr.symm.trans hr')
  rcases ht with ⟨hk, -⟩ | ⟨-, ts, newline, pending, rfl, hnl, hts, hclose, hsub⟩
  · exact absurd hk hn
  obtain ⟨hopen, hcloser, hother⟩ := hc pending hsub
  have hle := h.remaining_le
  rw [remaining, hr, List.length_cons] at hle
  have hrem : (⟨c.peek :: c.passed, ts ++ [newline], c.eof, c.modes⟩ : Cursor).remaining ≤ m := by
    change (ts ++ [newline]).length ≤ m
    omega
  rw [ha]
  unfold closes at hclose
  cases ho : c.peek.kind.isOpener with
  | true =>
    rw [if_pos ho] at hclose
    exact ⟨h.modes_eq, List.cons_ne_nil _ _, ⟨ts, newline, _, rfl, hnl, hts, hclose, hopen ho⟩, hrem⟩
  | false =>
    rw [if_neg (by simp [ho])] at hclose
    cases hcl : c.peek.kind.isCloser with
    | true =>
      rw [if_pos hcl, Bool.and_eq_true, beq_iff_eq] at hclose
      exact ⟨h.modes_eq, List.cons_ne_nil _ _,
        ⟨ts, newline, _, rfl, hnl, hts, hclose.2, hcloser ho hcl hclose.1⟩, hrem⟩
    | false =>
      rw [if_neg (by simp [hcl])] at hclose
      exact ⟨h.modes_eq, List.cons_ne_nil _ _,
        ⟨ts, newline, _, rfl, hnl, hts, hclose, hother hcl ho⟩, hrem⟩

/-- A token that is no closer leaves all closers ahead. -/
theorem pass (h : c.Within modes closers (m + 1)) (hs : Clear modes closers)
    (hn : c.peek.kind ≠ .newline) (hk : c.peek.kind.isCloser = false) :
    c.advance.Within modes closers m := by
  refine h.past hs hn fun pending hsub => ⟨fun _ => ?_, fun _ hcl => ?_, fun _ _ => hsub⟩
  · exact hsub.trans (List.sublist_cons_self _ _)
  · rw [hk] at hcl
    cases hcl

/-- A token that is not the closer of the innermost bracket leaves all closers ahead. -/
theorem pass_ne (h : c.Within modes (k :: closers) (m + 1)) (hk : c.peek.kind ≠ k) :
    c.advance.Within modes (k :: closers) m := by
  refine h.past (clear_cons _ _ _) h.kind_ne_newline fun pending hsub =>
    ⟨fun _ => hsub.trans (List.sublist_cons_self _ _), fun _ _ hhead => ?_, fun _ _ => hsub⟩
  cases pending with
  | nil => cases hhead
  | cons p pending =>
    obtain rfl : p = c.peek.kind := by simpa using hhead
    rcases List.sublist_cons_iff.mp hsub with hsub | ⟨r, heq, -⟩
    · exact hsub
    · exact absurd (List.cons.inj heq).1.symm hk

/-- Any token takes at most the closer of the innermost bracket. -/
theorem shorten (h : c.Within modes (k :: closers) (m + 1)) :
    c.advance.Within modes closers m := by
  refine h.past (clear_cons _ _ _) h.kind_ne_newline fun pending hsub => ?_
  have hsub' : closers.Sublist pending := (List.sublist_cons_self k closers).trans hsub
  exact ⟨fun _ => hsub'.trans (List.sublist_cons_self _ _), fun _ _ _ => hsub.tail,
    fun _ _ => hsub'⟩

/-- An opening bracket has its closer ahead. -/
theorem opened (h : c.Within modes closers (m + 1)) (hs : Clear modes closers)
    (hk : c.peek.kind.isOpener = true) :
    c.advance.Within modes (c.peek.kind.opposite :: closers) m := by
  have hn : c.peek.kind ≠ .newline := by
    intro hn
    simp [hn, TokenKind.isOpener] at hk
  refine h.past hs hn fun pending hsub => ⟨fun _ => hsub.cons_cons _, fun ho => ?_, fun _ ho => ?_⟩
  · simp [hk] at ho
  · simp [hk] at ho

end Within

end Cursor

end HclSyntax
