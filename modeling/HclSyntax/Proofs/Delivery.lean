import HclSyntax.Proofs.Meaning.Place

namespace HclSyntax

namespace Cursor

/-- What is done with a cursor. -/
inductive Op where
  | read
  | peek
  | enter (newlines : Bool)
  | leave

/-- A read that was made, with the positions before and after it. -/
structure Reading where
  token : Token
  start : Nat
  stop : Nat
  /-- Whether newlines counted. -/
  newlines : Bool

/-- The place of the token that was returned, which is the last one passed. -/
def Reading.index (r : Reading) : Nat := r.stop - 1

/-- A cursor, and what was done with it. -/
structure Session where
  cursor : Cursor
  /-- Whether newlines count, the innermost mode first. The one at the bottom stays. -/
  stack : List Bool
  /-- In the order in which they were made. -/
  readings : List Reading

namespace Session

def start (l : TokenList) : Session := ⟨ofTokens l, [true], []⟩

def step (s : Session) : Op → Session
  | .read =>
    let (token, cursor) := s.cursor.read
    let reading := ⟨token, s.cursor.position, cursor.position, s.cursor.newlinesCount⟩
    { s with cursor, readings := s.readings ++ [reading] }
  | .peek => s
  | .enter newlines => { s with cursor := s.cursor.enter newlines, stack := newlines :: s.stack }
  | .leave =>
    let stack := if s.stack.length > 1 then s.stack.tail else s.stack
    { s with cursor := s.cursor.leave, stack }

def run (l : TokenList) (ops : List Op) : Session := ops.foldl step (start l)

/-- How often the token at a place was returned. -/
def times (s : Session) (i : Nat) : Nat := s.readings.countP (·.index == i)

/-- The token at a place is one that is not returned: a comment, or a newline that a read went past
where newlines did not count. -/
def Skips (l : TokenList) (s : Session) (i : Nat) : Prop :=
  ∃ t ∈ l.get? i, t.kind = .comment ∨
    t.kind = .newline ∧ ∃ r ∈ s.readings, r.start ≤ i ∧ i < r.index ∧ r.newlines = false

/-- What was returned so far is what was passed, each token once, in order. Only the end of the file
is returned again. -/
structure Delivers (l : TokenList) (s : Session) : Prop where
  returned : ∀ r ∈ s.readings, l.get? r.index = some r.token
  ordered : s.readings.Pairwise fun r r' => r.index ≤ r'.index
  once : ∀ i < s.cursor.position,
    s.times i = 1 ∨ (i + 1 = l.length ∧ 1 ≤ s.times i) ∨ (s.times i = 0 ∧ s.Skips l i)

end Session

/-- The cursor is at a place in the list. -/
structure IsIn (c : Cursor) (l : TokenList) : Prop where
  whole : c.passed.reverse ++ c.rest = l.toList
  eof : c.eof = l.eof

variable {c : Cursor} {l : TokenList}

theorem IsIn.get?_add (h : c.IsIn l) (k : Nat) : l.get? (c.position + k) = c.rest[k]? := by
  rw [TokenList.get?, ← h.whole, position, ← List.length_reverse,
    List.getElem?_append_right (Nat.le_add_right _ _), Nat.add_sub_cancel_left]

theorem IsIn.length (h : c.IsIn l) : c.position + c.rest.length = l.length := by
  rw [← l.length_toList, ← h.whole, List.length_append, List.length_reverse, position]

theorem IsIn.ended (h : c.IsIn l) : c.Ended := by
  intro t ht
  have hlast : l.toList.getLast? = some t := by
    rw [← h.whole, List.getLast?_append, Option.mem_def.mp ht]
    rfl
  rw [TokenList.toList, List.getLast?_concat] at hlast
  obtain rfl := Option.some.inj hlast
  exact l.eof_kind

theorem IsIn.moves (h : c.IsIn l) : c.advance.IsIn l :=
  ⟨c.passed_advance.trans h.whole, c.reaches_advance.eof.trans h.eof⟩

/-- The tokens that a read goes past, unless nothing is left. -/
theorem IsIn.split (h : c.IsIn l) : c.rest = [] ∨ ∃ hidden rest,
    c.rest = hidden ++ c.peek :: rest ∧ (∀ t ∈ hidden, c.hides t = true) ∧
      c.advance.position = c.position + hidden.length + 1 := by
  refine h.ended.next.imp_right ?_
  rintro ⟨t, ts, hd, -, rfl, -, -⟩
  refine ⟨c.rest.takeWhile c.hides, ts, ?_, fun t ht => List.mem_takeWhile_imp ht, ?_⟩
  · rw [← hd]
    exact List.takeWhile_append_dropWhile.symm
  · rw [position, advance, hd]
    simp [position]
    omega

/-- What a read returns is the last of what it goes past. All else there is hidden, and at the end
of the file the read stays where it is. -/
theorem IsIn.read (h : c.IsIn l) : ∃ i, c.advance.position = i + 1 ∧ l.get? i = some c.peek ∧
    ((c.position = i + 1 ∧ i + 1 = l.length) ∨
      (c.position ≤ i ∧ ∀ j, c.position ≤ j → j < i → ∃ t ∈ l.get? j, c.hides t = true)) := by
  have hlength := h.length
  rcases h.split with hr | ⟨hidden, rest, hr, hhidden, hposition⟩
  · have hend : c.position = l.length := by simpa [hr] using hlength
    refine ⟨l.body.length, ?_, ?_, .inl ⟨hend, rfl⟩⟩
    · rw [advance_of_rest_nil hr, hend]
      rfl
    · simp [TokenList.get?, TokenList.toList, peek, hr, h.eof]
  · refine ⟨c.position + hidden.length, hposition, ?_, .inr ⟨Nat.le_add_right _ _, ?_⟩⟩
    · rw [h.get?_add, hr]
      simp
    · intro j hj hlt
      obtain ⟨k, rfl⟩ := Nat.exists_eq_add_of_le hj
      have hk : k < hidden.length := by omega
      refine ⟨hidden[k], ?_, hhidden _ (List.getElem_mem hk)⟩
      rw [h.get?_add, hr, List.getElem?_append_left hk]
      simp

theorem hides_iff {t : Token} : c.hides t = true ↔
    t.kind = .comment ∨ t.kind = .newline ∧ c.newlinesCount = false := by
  simp [hides]

namespace Session

/-- The account agrees with the cursor. -/
structure Sound (l : TokenList) (s : Session) : Prop extends s.Delivers l where
  place : s.cursor.IsIn l
  stack : s.stack = s.cursor.modes ++ [true]
  passed : ∀ r ∈ s.readings, r.index < s.cursor.position
  last : s.cursor.position = (s.readings.getLast?.map (·.index + 1)).getD 0

variable {s : Session} {i : Nat}

theorem sound_start (l : TokenList) : (start l).Sound l where
  returned := by simp [start]
  ordered := List.Pairwise.nil
  once := by simp [start, ofTokens, position]
  place := ⟨rfl, rfl⟩
  stack := rfl
  passed := by simp [start]
  last := rfl

theorem Sound.times_eq_zero (h : s.Sound l) (hi : s.cursor.position ≤ i) : s.times i = 0 := by
  refine List.countP_eq_zero.mpr fun r hr => ?_
  have := h.passed r hr
  simp
  omega

theorem Skips.more {s' : Session} (h : s.Skips l i) (hs : s.readings ⊆ s'.readings) :
    s'.Skips l i := by
  obtain ⟨t, ht, hk | ⟨hk, r, hr, hover⟩⟩ := h
  · exact ⟨t, ht, .inl hk⟩
  · exact ⟨t, ht, .inr ⟨hk, r, hs hr, hover⟩⟩

theorem times_step_read : (s.step .read).times i =
    s.times i + if s.cursor.advance.position - 1 = i then 1 else 0 := by
  simp [times, step, Cursor.read, List.countP_append, List.countP_singleton, Reading.index]

theorem Sound.read (h : s.Sound l) : (s.step .read).Sound l := by
  obtain ⟨i, hposition, hget, hplace⟩ := h.place.read
  let r : Reading :=
    ⟨s.cursor.peek, s.cursor.position, s.cursor.advance.position, s.cursor.newlinesCount⟩
  have hindex : r.index = i := by
    change s.cursor.advance.position - 1 = i
    omega
  have hreadings : (s.step .read).readings = s.readings ++ [r] := rfl
  have hafter : (s.step .read).cursor.position = i + 1 := hposition
  have htimes (j : Nat) : (s.step .read).times j = s.times j + if i = j then 1 else 0 := by
    rw [times_step_read, hposition, Nat.add_sub_cancel]
  have hstack : s.stack = s.cursor.advance.modes ++ [true] := by
    rw [h.stack, s.cursor.reaches_advance.modes]
  refine ⟨⟨?_, ?_, ?_⟩, h.place.moves, hstack, ?_, ?_⟩
  · rw [hreadings, List.forall_mem_append]
    exact ⟨h.returned, by simpa [hindex] using hget⟩
  · rw [hreadings, List.pairwise_append]
    refine ⟨h.ordered, List.pairwise_singleton _ _, fun x hx y hy => ?_⟩
    obtain rfl := List.mem_singleton.mp hy
    have := h.passed x hx
    omega
  · intro j hj
    rw [hafter] at hj
    rw [htimes]
    rcases Nat.eq_or_lt_of_le (Nat.le_of_lt_succ hj) with rfl | hlt
    · -- the token that is returned: for the first time, or the end of the file once more
      rw [if_pos rfl]
      rcases hplace with ⟨-, hend⟩ | ⟨hle, -⟩
      · exact .inr (.inl ⟨hend, Nat.le_add_left _ _⟩)
      · exact .inl (by rw [h.times_eq_zero hle])
    rw [if_neg (Nat.ne_of_gt hlt), Nat.add_zero]
    by_cases hbefore : j < s.cursor.position
    · refine (h.once j hbefore).imp_right
        (.imp_right fun ⟨hzero, hskips⟩ => ⟨hzero, hskips.more ?_⟩)
      rw [hreadings]
      exact List.subset_append_left _ _
    · -- a token that this read goes past
      rcases hplace with ⟨hend, -⟩ | ⟨-, hhidden⟩
      · omega
      obtain ⟨t, ht, hh⟩ := hhidden j (Nat.le_of_not_lt hbefore) hlt
      refine .inr (.inr ⟨h.times_eq_zero (Nat.le_of_not_lt hbefore), t, ht, ?_⟩)
      refine (hides_iff.mp hh).imp_right fun ⟨hk, hn⟩ => ⟨hk, r, ?_, ?_, ?_, hn⟩
      · simp [hreadings]
      · exact Nat.le_of_not_lt hbefore
      · rwa [hindex]
  · rw [hreadings, hafter, List.forall_mem_append]
    refine ⟨fun x hx => ?_, by simp [hindex]⟩
    have := h.passed x hx
    omega
  · rw [hreadings, hafter, List.getLast?_concat]
    simp [hindex]

theorem Sound.step (h : s.Sound l) (op : Op) : (s.step op).Sound l := by
  have ⟨⟨hreturned, hordered, honce⟩, ⟨hwhole, heof⟩, hstack, hpassed, hlast⟩ := h
  cases op with
  | read => exact h.read
  | peek => exact h
  | enter newlines =>
    refine ⟨⟨hreturned, hordered, honce⟩, ⟨hwhole, heof⟩, ?_, hpassed, hlast⟩
    exact congrArg (newlines :: ·) hstack
  | leave =>
    refine ⟨⟨hreturned, hordered, honce⟩, ⟨hwhole, heof⟩, ?_, hpassed, hlast⟩
    -- only the mode at the bottom is left: there is nothing that the cursor could drop
    change (if s.stack.length > 1 then s.stack.tail else s.stack) = s.cursor.modes.tail ++ [true]
    rw [hstack]
    cases s.cursor.modes <;> simp

theorem position_step (h : s.Sound l) (op : Op) :
    s.cursor.position ≤ (s.step op).cursor.position := by
  cases op with
  | read =>
    obtain ⟨i, hposition, -, hplace⟩ := h.place.read
    change _ ≤ s.cursor.advance.position
    omega
  | _ => exact Nat.le_refl _

/-- Along any run from a place at which the account is right, it stays right, and no position is
before the one in front of it. -/
theorem Sound.foldl (h : s.Sound l) (ops : List Op) :
    (ops.foldl Session.step s).Sound l ∧
      s.cursor.position ≤ (ops.foldl Session.step s).cursor.position := by
  induction ops generalizing s with
  | nil => exact ⟨h, Nat.le_refl _⟩
  | cons op ops ih =>
    obtain ⟨hsound, hle⟩ := ih (h.step op)
    exact ⟨hsound, Nat.le_trans (position_step h op) hle⟩

theorem sound_run (l : TokenList) (ops : List Op) : (run l ops).Sound l :=
  ((sound_start l).foldl ops).1

/-- What is called the previous range is that of the token that was returned last. -/
theorem Sound.previousRange (h : s.Sound l) : s.cursor.previousRange =
    ((s.readings.getLast?.map (·.token)).getD s.cursor.peek).range := by
  have hlast := h.last
  rcases hr : s.readings.getLast? with _ | r
  · rw [hr] at hlast
    have hnil : s.cursor.passed = [] := List.length_eq_zero_iff.mp hlast
    simp [Cursor.previousRange, hnil]
  · rw [hr] at hlast
    have hlength : s.cursor.passed.length = r.index + 1 := hlast
    have hreturned := h.returned r (List.mem_of_getLast? hr)
    rw [TokenList.get?, ← h.place.whole, List.getElem?_append_left (by simp [hlength]),
      List.getElem?_reverse (by omega), hlength, Nat.add_sub_cancel, Nat.sub_self,
      ← List.head?_eq_getElem?] at hreturned
    simp [Cursor.previousRange, List.headD_eq_head?_getD, hreturned]

end Session

/-- Whatever is done with a cursor, it never moves back nor beyond the end. The mode is the last one
entered and not left, and without any newlines count. What is seen next is what a read would return,
and the tokens passed are those returned, each by one read, or hidden. -/
theorem delivers_every_token (l : TokenList) (ops more : List Op) :
    let s := Session.run l ops
    (s.cursor.position ≤ (Session.run l (ops ++ more)).cursor.position ∧
      s.cursor.position ≤ l.length) ∧
    (s.stack.head? = some s.cursor.newlinesCount ∧ s.stack.getLast? = some true) ∧
    (s.step .peek = s ∧ ∃ r, (s.step .read).readings = s.readings ++ [r] ∧
      r.token = s.cursor.peek ∧ l.get? r.index = some s.cursor.peek) ∧
    s.Delivers l ∧
    (s.readings = [] → s.cursor.previousRange = s.cursor.peek.range) ∧
    ∀ r ∈ s.readings.getLast?, s.cursor.previousRange = r.token.range := by
  intro s
  have h : s.Sound l := Session.sound_run l ops
  refine ⟨⟨?_, ?_⟩, ⟨?_, ?_⟩, ⟨rfl, ?_⟩, h.toDelivers, fun hnil => ?_, fun r hr => ?_⟩
  · rw [Session.run, List.foldl_append]
    exact (h.foldl more).2
  · rw [← h.place.length]
    exact Nat.le_add_right _ _
  · rw [h.stack, newlinesCount]
    cases s.cursor.modes <;> rfl
  · rw [h.stack, List.getLast?_concat]
  · obtain ⟨i, hposition, hget, -⟩ := h.place.read
    refine ⟨_, rfl, rfl, ?_⟩
    change l.get? (s.cursor.advance.position - 1) = _
    rwa [hposition]
  · rw [h.previousRange, hnil]
    rfl
  · rw [h.previousRange, Option.mem_def.mp hr]
    rfl

/-- Two names with a newline between them. -/
def twoNames : TokenList where
  body := [⟨.identifier, [0x61], .point "a" ⟨1, 1, 0⟩⟩, ⟨.newline, [0x0A], .point "a" ⟨1, 2, 1⟩⟩,
    ⟨.identifier, [0x62], .point "a" ⟨2, 1, 2⟩⟩]
  eof := ⟨.eof, [], .point "a" ⟨2, 2, 3⟩⟩
  eof_kind := @rfl _ TokenKind.eof

/-- The newline is seen, and the second read goes past it all the same: it counts no longer. -/
theorem twoNames_are_delivered :
    (Session.run twoNames []).readings = [] ∧
    (Session.run twoNames []).cursor.previousRange = .point "a" ⟨1, 1, 0⟩ ∧
    let s := Session.run twoNames [.read, .peek, .enter false, .read, .leave]
    s.readings.map (·.index) = [0, 2] ∧ s.Delivers twoNames ∧ s.Skips twoNames 1 ∧
      s.cursor.previousRange = .point "a" ⟨2, 1, 2⟩ := by
  obtain ⟨-, -, -, -, hnone, -⟩ := delivers_every_token twoNames [] []
  obtain ⟨-, -, -, hdelivers, -, hlast⟩ :=
    delivers_every_token twoNames [.read, .peek, .enter false, .read, .leave] []
  refine ⟨rfl, hnone rfl, rfl, hdelivers, ?_, hlast _ rfl⟩
  obtain h | ⟨h, -⟩ | ⟨-, h⟩ := hdelivers.once 1 (by decide)
  · cases h
  · cases h
  · exact h

end Cursor

end HclSyntax
