import HclSyntax.Parser.Literal
import HclSyntax.Proofs.Line.Agree

namespace HclSyntax

namespace TokenKind

theorem opposite_opposite {k : TokenKind} (h : k.isCloser) : k.opposite.opposite = k := by
  cases k <;> first | rfl | cases h

end TokenKind

namespace Parser

variable {α : Type} {x : Surroundings} {c : Cursor} {modes : List Bool}
  {closers : List TokenKind} {k : TokenKind} {m n : Nat}

/-- At every place in a line with at most `n` tokens left the parsers agree, and they leave all
closers ahead. -/
def Contained (x : Surroundings) (n : Nat) (p p' : Parser α) : Prop :=
  ∀ (c : Cursor) (modes : List Bool) (closers : List TokenKind) (m : Nat), m ≤ n →
    Cursor.Clear modes closers → c.Within modes closers m →
      p.Agrees x p' c fun _ c' => c'.Within modes closers m

/-- Likewise for parsers that pass one closer of kind `k`. -/
def ContainedTo (x : Surroundings) (k : TokenKind) (n : Nat) (p p' : Parser α) : Prop :=
  ∀ (c : Cursor) (modes : List Bool) (closers : List TokenKind) (m : Nat), m ≤ n →
    c.Within modes (k :: closers) m → p.Agrees x p' c fun _ c' => c'.Within modes closers m

/-- A step that asks for more has the closers that it `needs` ahead and is nearer to the end of the
line; the last one leaves the others ahead. -/
inductive Continues (modes : List Bool) (needs closers : List TokenKind) (m : Nat) (c : Cursor) :
    Bool → Prop
  | more {j : Nat} (hj : j < m) (h : c.Within modes needs j) : Continues modes needs closers m c true
  | done (h : c.Within modes closers m) : Continues modes needs closers m c false

theorem agrees_skipPastStep {depth : Nat} (hk : k.isCloser)
    (h : c.Within modes (List.replicate (depth + 1) k ++ closers) m) :
    (skipPastStep k depth).Agrees x (skipPastStep k depth) c fun r c' =>
      Continues modes (List.replicate (r.1 + 1) k ++ closers) closers m c' r.2 := by
  obtain ⟨j, rfl⟩ := h.bound_pos
  have hs : Cursor.Clear modes (List.replicate (depth + 1) k ++ closers) := Cursor.clear_cons _ _ _
  obtain ⟨heof, hdir⟩ := h.kind_ne hs
  unfold skipPastStep
  apply agrees_read_bind h hs
  have hcount : countedAs k c.peek.kind = c.peek.kind := if_neg fun hc => hdir hc.2
  simp only [hcount, heof, if_false]
  split
  · apply agrees_pure
    cases depth with
    | zero => exact .done (h.shorten.mono (Nat.le_succ j))
    | succ depth => exact .more (Nat.lt_succ_self j) h.shorten
  rename_i hne
  split
  · -- one more bracket of this kind is open, and its closer is ahead, too
    rename_i hopen
    have ho : c.peek.kind.isOpener = true := by
      rw [hopen]
      exact TokenKind.opposite_isOpener hk
    have hback : c.peek.kind.opposite = k := by rw [hopen, TokenKind.opposite_opposite hk]
    have hw := h.opened hs ho
    rw [hback] at hw
    exact agrees_pure (.more (Nat.lt_succ_self j) hw)
  · exact agrees_pure (.more (Nat.lt_succ_self j) (h.pass_ne hne))

/-- A loop whose state says which closers it needs ahead. -/
theorem agrees_iterate {σ : Type} (needs : σ → List TokenKind)
    {step step' : σ → Parser (σ × Bool)} (a : σ)
    (hstep : ∀ a c m, m ≤ n → c.Within modes (needs a) m → (step a).Agrees x (step' a) c
      fun r c' => Continues modes (needs r.1) closers m c' r.2)
    (h : c.Within modes (needs a) n) :
    (iterate step a).Agrees x (iterate step' a) c fun _ c' => c'.Within modes closers n := by
  apply Agrees.iterate (I := fun m a c => m ≤ n ∧ c.Within modes (needs a) m)
  · intro m a c ⟨hm, hc⟩
    refine (hstep a c m hm hc).mono fun r c' hr => ?_
    rcases r with ⟨a', more⟩
    cases hr with
    | @more j hj h => exact ⟨j, hj, by omega, h⟩
    | done h => exact h.mono hm
  · exact ⟨h.remaining_le, h.exact⟩

theorem containedTo_skipPast (hk : k.isCloser) : ContainedTo x k n (skipPast k) (skipPast k) := by
  intro c modes closers m _ h
  unfold skipPast
  apply agrees_recover_bind
  apply Agrees.seq (P := fun _ c' => c'.Within modes closers m)
  · exact agrees_iterate (fun depth => List.replicate (depth + 1) k ++ closers) 0
      (fun depth c j _ hc => agrees_skipPastStep hk hc) h
  · exact fun _ _ h => agrees_pure h

/-- What `closeTo` leaves open is closed behind the closer. -/
theorem closeTo_sublist {opened pending : List TokenKind} {k : TokenKind}
    (ho : ∀ o ∈ opened, o.isOpener)
    (h : (opened.map TokenKind.opposite).Sublist (k :: pending)) :
    ((closeTo k opened).map TokenKind.opposite).Sublist pending := by
  induction opened with
  | nil => exact List.nil_sublist _
  | cons o opened ih =>
    have hopener := ho o List.mem_cons_self
    by_cases hk : o.opposite = k
    · have hclose : closeTo k (o :: opened) = opened := by
        simp [closeTo, TokenKind.opens, hopener, hk]
      rw [hclose]
      exact h.tail
    · have hclose : closeTo k (o :: opened) = closeTo k opened := by
        simp [closeTo, TokenKind.opens, hk]
      rw [hclose]
      refine ih (fun p hp => ho p (List.mem_cons_of_mem o hp)) ?_
      exact (List.sublist_cons_self _ _).trans h

/-- What is open is opened, or was open before. -/
theorem mem_closeTo {opened : List TokenKind} {k o : TokenKind} (h : o ∈ closeTo k opened) :
    o ∈ opened :=
  (List.dropWhile_sublist _).subset ((List.drop_sublist _ _).subset h)

/-- The open brackets are all closed in the line. -/
structure Opened (c : Cursor) (modes : List Bool) (opened : List TokenKind) (m : Nat) : Prop where
  within : c.Within modes (opened.map TokenKind.opposite) m
  openers : ∀ o ∈ opened, o.isOpener

theorem agrees_skipItemStep {opened : List TokenKind} (hs : modes.headD true = true)
    (h : Opened c modes opened m) :
    (skipItemStep opened).Agrees x (skipItemStep opened) c fun r c' =>
      if r.2 then ∃ j < m, Opened c' modes r.1 j else c'.Behind modes := by
  obtain ⟨h, ho⟩ := h
  obtain ⟨j, rfl⟩ := h.bound_pos
  have hs : Cursor.Clear modes (opened.map TokenKind.opposite) := .inl hs
  obtain ⟨heof, -⟩ := h.kind_ne hs
  unfold skipItemStep
  apply agrees_read_bind h hs
  by_cases hn : c.peek.kind = .newline
  · -- the end of the line, where nothing is open
    have hnil : opened = [] := by
      cases opened with
      | nil => rfl
      | cons o opened => exact absurd hn h.kind_ne_newline
    rw [if_pos (.inr ⟨hn, hnil⟩)]
    exact agrees_pure (h.newline hs hn)
  rw [if_neg (by simp [heof, hn])]
  split
  · rename_i hopen
    refine agrees_pure ⟨j, Nat.lt_succ_self j, h.opened hs hopen, ?_⟩
    exact List.forall_mem_cons.mpr ⟨hopen, ho⟩
  rename_i hopen
  split
  · rename_i hclose
    have hw : c.advance.Within modes ((closeTo c.peek.kind opened).map TokenKind.opposite) j := by
      refine h.past hs hn fun pending hsub => ⟨fun h' => absurd h' hopen, fun _ _ hhead => ?_,
        fun h' => ?_⟩
      · cases pending with
        | nil => cases hhead
        | cons p pending =>
          obtain rfl : p = c.peek.kind := by simpa using hhead
          exact closeTo_sublist ho hsub
      · rw [hclose] at h'
        cases h'
    exact agrees_pure ⟨j, Nat.lt_succ_self j, hw, fun o h => ho o (mem_closeTo h)⟩
  · rename_i hclose
    exact agrees_pure ⟨j, Nat.lt_succ_self j, h.pass hs hn (by simpa using hclose), ho⟩

/-- Skipping an item passes the whole line. -/
theorem agrees_skipItem (hs : modes.headD true = true) (h : c.Within modes closers m) :
    skipItem.Agrees x skipItem c fun _ c' => c'.Behind modes := by
  have hw : c.Within modes [] c.remaining := by
    obtain ⟨ts, newline, pending, hr, hn, hts, hc, -⟩ := h.ahead
    exact ⟨h.modes_eq, h.passed, ⟨ts, newline, pending, hr, hn, hts, hc, List.nil_sublist _⟩,
      Nat.le_refl _⟩
  unfold skipItem
  apply agrees_recover_bind
  apply Agrees.seq (P := fun _ c' => c'.Behind modes)
  · exact Agrees.iterate (I := fun m opened c => Opened c modes opened m)
      (fun m opened c hc => agrees_skipItemStep hs hc) ⟨hw, by simp⟩
  · exact fun _ _ h => agrees_pure h

theorem agrees_numberValue {t : Token} {Q : Value → Cursor → Prop} (h : ∀ v, Q v c) :
    (numberValue t).Agrees x (numberValue t) c Q := by
  unfold numberValue
  split
  · exact agrees_pure (h _)
  · exact agrees_report_bind (agrees_pure (h _))

theorem agrees_chunk {t : Token} {Q : String → Cursor → Prop} (h : ∀ text, Q text c) :
    (chunk t).Agrees x (chunk t) c Q := agrees_tell_bind (agrees_pure (h _))

theorem agrees_quotedStep {opening : Token} {q : QuotedText}
    (h : c.Within modes (.closeQuote :: closers) m) :
    (quotedStep opening q).Agrees x (quotedStep opening q) c fun r c' =>
      Continues modes (.closeQuote :: closers) closers m c' r.2 := by
  obtain ⟨j, rfl⟩ := h.bound_pos
  have hs := Cursor.clear_cons modes .closeQuote closers
  obtain ⟨heof, hdir⟩ := h.kind_ne hs
  unfold quotedStep
  apply agrees_read_bind h hs
  dsimp only
  split
  · exact agrees_pure (.done (h.shorten.mono (Nat.le_succ j)))
  · rename_i hk
    have hw := h.pass_ne (by simp [hk])
    exact Agrees.seq (agrees_chunk fun _ => hw) fun _ _ hw =>
      agrees_pure (.more (Nat.lt_succ_self j) hw)
  · rename_i hk
    have hw := h.opened hs (by rw [hk]; rfl)
    rw [hk] at hw
    refine agrees_report_bind (Agrees.seq (containedTo_skipPast rfl _ _ _ j (Nat.le_refl j) hw) ?_)
    exact fun _ _ hw => agrees_pure (.more (Nat.lt_succ_self j) hw)
  · rename_i hk
    exact absurd hk hdir
  · rename_i hk
    exact absurd hk heof
  · rename_i hk _ _ _ _
    have hw := h.pass_ne hk
    refine agrees_report_bind (Agrees.seq (containedTo_skipPast rfl _ _ _ j (Nat.le_refl j) hw) ?_)
    exact fun _ _ hw => agrees_pure (.done (hw.mono (Nat.le_succ j)))

theorem containedTo_quotedString (opening : Token) :
    ContainedTo x .closeQuote n (quotedString opening) (quotedString opening) := by
  intro c modes closers m _ h
  unfold quotedString
  apply Agrees.seq (P := fun _ c' => c'.Within modes closers m)
  · exact agrees_iterate (fun _ => .closeQuote :: closers) _
      (fun _ _ _ _ hc => agrees_quotedStep hc) h
  · exact fun _ _ h => agrees_pure h

end Parser

end HclSyntax
