import HclSyntax.Diagnostic.Problem
import HclSyntax.Proofs.Depth.Place
import HclSyntax.Proofs.Progress.Arrives
import HclSyntax.Proofs.Progress.Steps

namespace HclSyntax

/-- What is reported where no bracket is left open: parentheses that are closed, and separators of
arguments that are no parentheses. -/
def Diagnostic.Harmless (ts : List Token) (d : Diagnostic) : Prop :=
  d.summary ≠ Problem.unbalancedParens.summary ∧
    (d.summary = Problem.missingArgumentSeparator.summary →
      ∀ t ∈ ts, t.kind = .openParen → d.subject ≠ t.range)

/-- Reports that are harmless in the source. -/
def TokenList.harmless (src : TokenList) (d : Diagnostic) : Prop := d.Harmless src.body

namespace Parser

variable {src : TokenList} {α β σ : Type} {c : Cursor}

/-- What is passed over in search of a closer of kind `k`, inside so many brackets of its kind. -/
def Skips (src : TokenList) (k : TokenKind) (outer : List TokenKind) (depth : Nat) (c : Cursor) :
    Prop :=
  ∃ opened pending, c.Pends src (opened ++ pending) ∧ opened.count k = depth ∧
    ∀ below, k :: below <:+ pending → below.Sublist outer

theorem countedAs_eq {k : TokenKind} (kind : TokenKind) (hk : k.isCloser) :
    (countedAs k kind = .eof ↔ kind = .eof) ∧ (countedAs k kind = k ↔ kind = k) ∧
      (countedAs k kind = k.opposite ↔ kind.isOpener ∧ kind.opposite = k) := by
  cases k <;> simp [TokenKind.isCloser] at hk <;> cases kind <;> decide

theorem arrives_skipPastStep {k : TokenKind} (hk : k.isCloser) {outer : List TokenKind}
    {depth : Nat} (h : Skips src k outer depth c) :
    Arrives src.harmless (skipPastStep k depth) c fun r c' =>
      if r.2 then Skips src k outer r.1 c' else c'.AtDepth src outer ∧ c'.Just (·.kind = k) := by
  obtain ⟨opened, pending, hp, hcount, hready⟩ := h
  obtain ⟨heof, hclose, hopen⟩ := countedAs_eq c.peek.kind hk
  refine arrives_read_bind ?_
  dsimp only
  split
  · rename_i h
    have he := heof.mp h
    exact arrives_pure ⟨⟨[], hp.past_end he, List.nil_sublist _⟩, .inl (hp.rest_of_eof he)⟩
  rename_i hne
  split
  · rename_i h
    have hkind := hclose.mp h
    obtain ⟨below, hbelow, hpast⟩ := hp.closer (hkind ▸ hk)
    cases opened with
    | nil =>
      obtain rfl : depth = 0 := hcount.symm
      refine arrives_pure ⟨⟨below, hpast, hready below ?_⟩, Cursor.just_advance hkind⟩
      rw [← hkind]
      exact hbelow ▸ List.suffix_refl _
    | cons o opened =>
      obtain ⟨rfl, rfl⟩ := List.cons.inj hbelow
      obtain rfl : opened.count k + 1 = depth := by rw [← hcount, hkind, List.count_cons_self]
      exact arrives_pure ⟨opened, pending, hpast, rfl, hready⟩
  rename_i hother
  split
  · rename_i h
    obtain ⟨ho, hkind⟩ := hopen.mp h
    refine arrives_pure ⟨k :: opened, pending, hkind ▸ hp.opener ho, ?_, hready⟩
    rw [List.count_cons_self, hcount]
  rename_i hopener
  by_cases ho : c.peek.kind.isOpener
  · have hkind : c.peek.kind.opposite ≠ k := fun h => hopener (hopen.mpr ⟨ho, h⟩)
    refine arrives_pure ⟨c.peek.kind.opposite :: opened, pending, hp.opener ho, ?_, hready⟩
    rw [List.count_cons_of_ne hkind, hcount]
  by_cases hc : c.peek.kind.isCloser
  · have hkind : c.peek.kind ≠ k := fun h => hother (hclose.mpr h)
    obtain ⟨below, hbelow, hpast⟩ := hp.closer hc
    cases opened with
    | nil =>
      obtain rfl : pending = c.peek.kind :: below := hbelow
      exact arrives_pure ⟨[], below, hpast, hcount,
        fun b hb => hready b (hb.trans (List.suffix_cons _ _))⟩
    | cons o opened =>
      obtain ⟨rfl, rfl⟩ := List.cons.inj hbelow
      rw [List.count_cons_of_ne hkind] at hcount
      exact arrives_pure ⟨opened, pending, hpast, hcount, hready⟩
  · have hflat : c.peek.kind.Flat := ⟨Bool.eq_false_iff.mpr ho, Bool.eq_false_iff.mpr hc⟩
    exact arrives_pure ⟨opened, pending, hp.flat hflat fun h => hne (heof.mpr h), hcount, hready⟩

theorem arrives_skipPast {k : TokenKind} (hk : k.isCloser) {outer : List TokenKind}
    (h : c.Ready src k outer) :
    Arrives src.harmless (skipPast k) c fun _ c' =>
      c'.AtDepth src outer ∧ c'.Just (·.kind = k) := by
  obtain ⟨pending, hp, hready⟩ := h
  refine still_recover.seq fun _ => ?_
  refine Arrives.seq (P := fun _ c' => c'.AtDepth src outer ∧ c'.Just (·.kind = k)) ?_
    fun _ _ h => arrives_pure h
  exact .iterate (advances_skipPastStep k) (fun _ _ => arrives_skipPastStep hk) hp.ends
    ⟨[], pending, hp, rfl, hready⟩

/-- The brackets opened since are closed before those that were pending. -/
def Opens (src : TokenList) (outer : List TokenKind) (opened : List TokenKind) (c : Cursor) :
    Prop :=
  ∃ pending, c.Pends src (opened.map TokenKind.opposite ++ pending) ∧ pending.Sublist outer ∧
    ∀ o ∈ opened, o.isOpener

theorem arrives_skipItemStep {outer opened : List TokenKind} (h : Opens src outer opened c) :
    Arrives src.harmless (skipItemStep opened) c fun r c' =>
      if r.2 then Opens src outer r.1 c'
      else c'.AtDepth src outer ∧ c'.Just (·.kind = .newline) := by
  obtain ⟨pending, hp, hsub, hopeners⟩ := h
  refine arrives_read_bind ?_
  dsimp only
  split
  · rename_i h
    rcases h with he | ⟨hn, rfl⟩
    · exact arrives_pure ⟨⟨[], hp.past_end he, List.nil_sublist _⟩, .inl (hp.rest_of_eof he)⟩
    · have hpast := hp.flat (by rw [hn]; decide) (by rw [hn]; decide)
      exact arrives_pure ⟨⟨pending, hpast, hsub⟩, Cursor.just_advance hn⟩
  rename_i hne
  split
  · rename_i ho
    exact arrives_pure ⟨pending, hp.opener ho, hsub, by simpa [ho] using hopeners⟩
  rename_i ho
  split
  · rename_i hc
    obtain ⟨below, hbelow, hpast⟩ := hp.closer hc
    cases opened with
    | nil =>
      obtain rfl : pending = c.peek.kind :: below := hbelow
      exact arrives_pure ⟨below, hpast, (List.sublist_cons_self _ _).trans hsub, hopeners⟩
    | cons o opened =>
      obtain ⟨hkind, rfl⟩ := List.cons.inj hbelow
      have hclose : closeTo c.peek.kind (o :: opened) = opened := by
        simp [closeTo, TokenKind.opens, hopeners o List.mem_cons_self, hkind]
      rw [hclose]
      exact arrives_pure ⟨pending, hpast, hsub, fun p hm => hopeners p (List.mem_cons_of_mem o hm)⟩
  · rename_i hc
    have hflat : c.peek.kind.Flat := ⟨Bool.eq_false_iff.mpr ho, Bool.eq_false_iff.mpr hc⟩
    exact arrives_pure ⟨pending, hp.flat hflat fun h => hne (.inl h), hsub, hopeners⟩

theorem arrives_skipItem {outer : List TokenKind} (h : c.AtDepth src outer) :
    Arrives src.harmless skipItem c fun _ c' =>
      c'.AtDepth src outer ∧ c'.Just (·.kind = .newline) := by
  obtain ⟨pending, hp, hs⟩ := h
  refine still_recover.seq fun _ => ?_
  refine Arrives.seq (P := fun _ c' => c'.AtDepth src outer ∧ c'.Just (·.kind = .newline)) ?_
    fun _ _ h => arrives_pure h
  exact .iterate advances_skipItemStep (fun _ _ => arrives_skipItemStep) hp.ends
    ⟨pending, hp, hs, by simp⟩

section
variable (At : TokenList → List TokenKind → Cursor → Prop) (src : TokenList)

/-- All brackets that `p` opens are closed where it stops. -/
def KeepsFrom (p : Parser α) : Prop :=
  ∀ ⦃c outer⦄, At src outer c → Arrives src.harmless p c fun _ c' => c'.AtDepth src outer

/-- Inside a bracket that is closed by `k`, `p` closes that one, too. -/
def ClosesFrom (k : TokenKind) (p : Parser α) : Prop :=
  ∀ ⦃c outer⦄, At src (k :: outer) c → Arrives src.harmless p c fun _ c' =>
    c'.AtDepth src outer ∧ c'.Just (·.kind = k)

/-- Steps inside a bracket that is closed by `k`, the last of which closes it. -/
def LoopsFrom (k : TokenKind) (step : σ → Parser (σ × Bool)) : Prop :=
  ∀ a ⦃c outer⦄, At src (k :: outer) c → Arrives src.harmless (step a) c fun r c' =>
    if r.2 then At src (k :: outer) c' else c'.AtDepth src outer ∧ c'.Just (·.kind = k)

end

/-- From any place `p` leaves no bracket open. -/
abbrev Keeps (src : TokenList) (p : Parser α) : Prop := KeepsFrom Cursor.AtDepth src p

/-- From any place `p` closes the bracket around it. -/
abbrev Closes (src : TokenList) (k : TokenKind) (p : Parser α) : Prop :=
  ClosesFrom Cursor.AtDepth src k p

/-- Where an operand begins `p` leaves no bracket open. -/
abbrev KeepsOperand (src : TokenList) (p : Parser α) : Prop := KeepsFrom Cursor.AtOperand src p

/-- Where an operand begins `p` closes the bracket around it. -/
abbrev ClosesOperand (src : TokenList) (k : TokenKind) (p : Parser α) : Prop :=
  ClosesFrom Cursor.AtOperand src k p

section
variable {At : TokenList → List TokenKind → Cursor → Prop}
variable {p : Parser α} {f : α → Parser β} {k : TokenKind} {outer : List TokenKind}

theorem Still.keeps (h : Still p) : Keeps src p := fun c outer hc b _ => by
  rw [h ⟨c, b⟩]
  exact hc

theorem keeps_pure (a : α) : Keeps src (pure a) := (still_pure a).keeps

theorem KeepsFrom.bind (hp : KeepsFrom At src p) (hf : ∀ a, Keeps src (f a)) :
    KeepsFrom At src (p >>= f) := fun _ _ hc => (hp hc).seq fun a _ h => hf a h

theorem KeepsFrom.closes (hp : KeepsFrom At src p) (hf : ∀ a, Closes src k (f a)) :
    ClosesFrom At src k (p >>= f) := fun _ _ hc => (hp hc).seq fun a _ h => hf a h

theorem KeepsFrom.track_bind {f : α × Bool → Parser β} (hp : KeepsFrom At src p)
    (hf : ∀ a lost, Keeps src (f (a, lost))) : KeepsFrom At src (track p >>= f) :=
  fun _ _ hc => (hp hc).track_seq fun a lost _ h => hf a lost h

theorem KeepsFrom.track_closes {f : α × Bool → Parser β} (hp : KeepsFrom At src p)
    (hf : ∀ a lost, Closes src k (f (a, lost))) : ClosesFrom At src k (track p >>= f) :=
  fun _ _ hc => (hp hc).track_seq fun a lost _ h => hf a lost h

theorem ClosesFrom.still (hp : ClosesFrom At src k p) (hf : ∀ a, Still (f a)) :
    ClosesFrom At src k (p >>= f) :=
  fun _ _ hc => (hp hc).seq fun a c' h b _ => by
    rw [hf a ⟨c', b⟩]
    exact h

theorem ClosesFrom.withNewlines {newlines : Bool} (hp : ClosesFrom At src k p)
    (hat : ∀ {c outer}, At src outer c → At src outer (c.enter newlines)) :
    ClosesFrom At src k (withNewlines newlines p) := fun _ _ hc =>
  Arrives.withNewlines ((hp (hat hc)).mono fun _ _ h => ⟨h.1.leave, h.2⟩)

theorem LoopsFrom.iterate {step : σ → Parser (σ × Bool)} (h : LoopsFrom At src k step)
    (ha : Advances step) (hat : ∀ {c outer}, At src outer c → c.AtDepth src outer) (a : σ) :
    ClosesFrom At src k (iterate step a) := fun _ outer hc =>
  .iterate (I := fun _ => At src (k :: outer))
    (Q := fun _ c => c.AtDepth src outer ∧ c.Just (·.kind = k)) ha (fun a _ hc => h a hc)
    (hat hc).ends hc

theorem closes_skipPast (hk : k.isCloser) : Closes src k (skipPast k) :=
  fun _ _ hc => arrives_skipPast hk hc.ready

/-- The closer of a bracket is passed. -/
theorem arrives_close {Q : β → Cursor → Prop} {f : Unit → Parser β}
    (h : c.AtDepth src (k :: outer)) (hk : c.peek.kind = k) (hc : k.isCloser)
    (hf : ∀ c', c'.AtDepth src outer ∧ c'.Just (·.kind = k) → Arrives src.harmless (f ()) c' Q) :
    Arrives src.harmless (skip >>= f) c Q :=
  arrives_skip_bind (hf _ ⟨h.closer hk hc, Cursor.just_advance hk⟩)

/-- A loop that gives up. -/
theorem arrives_giveUp {a : σ} (hk : k.isCloser) (h : c.Ready src k outer) :
    Arrives src.harmless (skipPast k >>= fun _ => pure (a, false)) c fun r c' =>
      if r.2 then At src (k :: outer) c' else c'.AtDepth src outer ∧ c'.Just (·.kind = k) :=
  (arrives_skipPast hk h).seq fun _ _ hc => arrives_pure hc

end

end Parser

end HclSyntax
