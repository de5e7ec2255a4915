import HclSyntax.Proofs.Depth.Run
import HclSyntax.Proofs.Fence.Place

namespace HclSyntax.Parser

variable {f : Fence} {α β σ : Type} {c : Cursor} {closers : List TokenKind} {k : TokenKind}

/-- Where `p` stops, all closers that were ahead still are. -/
def Stays (f : Fence) (p : Parser α) : Prop :=
  ∀ ⦃c closers⦄, c.Fenced f closers → Ends p c fun _ c' => c'.Fenced f closers

/-- Inside a bracket that `k` closes, `p` passes that closer and those inside of it. -/
def Exits (f : Fence) (k : TokenKind) (p : Parser α) : Prop :=
  ∀ ⦃c closers⦄, c.Fenced f (k :: closers) → Ends p c fun _ c' => c'.Fenced f closers

/-- What is ahead after a step inside a bracket that `k` closes, which may have been the last. -/
def Stepped (f : Fence) (k : TokenKind) (closers : List TokenKind) (r : σ × Bool) (c : Cursor) :
    Prop :=
  c.Fenced f (if r.2 then k :: closers else closers)

/-- Steps inside a bracket that `k` closes, the last of which passes the closer. -/
def Turns (f : Fence) (k : TokenKind) (step : σ → Parser (σ × Bool)) : Prop :=
  ∀ a ⦃c closers⦄, c.Fenced f (k :: closers) → Ends (step a) c (Stepped f k closers)

section
variable {p : Parser α} {g : α → Parser β}

theorem Still.stays (h : Still p) : Stays f p := fun c _ hc b _ => by
  rw [h ⟨c, b⟩]
  exact hc

theorem stays_pure (a : α) : Stays f (pure a) := (still_pure a).stays

theorem Stays.bind (hp : Stays f p) (hg : ∀ a, Stays f (g a)) : Stays f (p >>= g) :=
  fun _ _ h => (hp h).seq fun a _ h => hg a h

theorem Stays.exits (hp : Stays f p) (hg : ∀ a, Exits f k (g a)) : Exits f k (p >>= g) :=
  fun _ _ h => (hp h).seq fun a _ h => hg a h

theorem Stays.track_bind {g : α × Bool → Parser β} (hp : Stays f p)
    (hg : ∀ a lost, Stays f (g (a, lost))) : Stays f (track p >>= g) :=
  fun _ _ h => (hp h).track_seq fun a lost _ h => hg a lost h

theorem Stays.track_exits {g : α × Bool → Parser β} (hp : Stays f p)
    (hg : ∀ a lost, Exits f k (g (a, lost))) : Exits f k (track p >>= g) :=
  fun _ _ h => (hp h).track_seq fun a lost _ h => hg a lost h

theorem Exits.withNewlines (hp : Exits f k p) (newlines : Bool) :
    Exits f k (withNewlines newlines p) := fun _ _ h =>
  Arrives.withNewlines ((hp (h.enter newlines)).mono fun _ _ h => h.leave)

theorem Exits.still (hp : Exits f k p) (hg : ∀ a, Still (g a)) : Exits f k (p >>= g) :=
  fun _ _ h => (hp h).seq fun a _ h => (hg a).stays h

theorem Turns.iterate {step : σ → Parser (σ × Bool)} (h : Turns f k step) (ha : Advances step)
    (a : σ) : Exits f k (iterate step a) := fun _ closers hc =>
  .iterate (I := fun _ c => c.Fenced f (k :: closers)) (Q := fun _ c => c.Fenced f closers) ha
    (fun a _ hc => (h a hc).mono fun r _ hr => by
      rw [Stepped] at hr
      split <;> simpa [*] using hr)
    hc.ends hc

end

theorem stepped_skipPastStep (hk : k.isCloser) (depth : Nat)
    (h : c.Fenced f (k :: (List.replicate depth k ++ closers))) :
    Ends (skipPastStep k depth) c fun r c' =>
      if r.2 then c'.Fenced f (k :: (List.replicate r.1 k ++ closers)) else c'.Fenced f closers := by
  obtain ⟨heof, hclose, hopen⟩ := countedAs_eq c.peek.kind hk
  have hall : closers.Sublist (k :: (List.replicate depth k ++ closers)) :=
    (List.sublist_append_right _ _).trans (List.sublist_cons_self _ _)
  refine arrives_read_bind ?_
  dsimp only
  split
  · rename_i he
    exact arrives_pure ((h.passed (heof.mp he) rfl).weaken hall)
  split
  · cases depth with
    | zero => exact arrives_pure h.shorten
    | succ depth => exact arrives_pure h.shorten
  rename_i hother
  split
  · rename_i ho
    obtain ⟨ho, hkind⟩ := hopen.mp ho
    have hopened := h.opened rfl ho
    rw [hkind] at hopened
    exact arrives_pure hopened
  · exact arrives_pure (h.pass_ne fun hkind => hother (hclose.mpr hkind))

theorem exits_skipPast (hk : k.isCloser) : Exits f k (skipPast k) := by
  intro c closers h
  refine still_recover.seq fun _ => Arrives.seq (P := fun _ c' => c'.Fenced f closers) ?_
    fun _ _ h => arrives_pure h
  exact .iterate (I := fun depth c => c.Fenced f (k :: (List.replicate depth k ++ closers)))
    (advances_skipPastStep k) (fun depth _ h => stepped_skipPastStep hk depth h) h.ends h

/-- A search for the fence finds it. -/
theorem ends_skipPast_fence (h : c.Fenced f []) :
    Ends (skipPast .sequenceEnd) c fun _ c' => c'.rest = f.after := by
  refine still_recover.seq fun _ => Arrives.seq (P := fun _ c' => c'.rest = f.after) ?_
    fun _ _ h => arrives_pure h
  refine .iterate (I := fun depth c => depth = 0 ∧ c.Fenced f []) (advances_skipPastStep _)
    (fun depth c ⟨hdepth, h⟩ => ?_) h.ends ⟨rfl, h⟩
  obtain ⟨heof, hclose, hopen⟩ := countedAs_eq c.peek.kind (k := .sequenceEnd) rfl
  have hkind := h.peek_kind
  refine arrives_read_bind ?_
  dsimp only
  split
  · rename_i he
    rw [heof.mp he] at hkind
    simp [TokenKind.inSequence] at hkind
  split
  · rename_i hk
    exact arrives_pure (by simpa [hdepth] using h.rest_advance (hclose.mp hk))
  rename_i hne
  split
  · -- no sequence opens in front of the fence
    rename_i ho
    obtain ⟨ho, hopposite⟩ := hopen.mp ho
    cases hk : c.peek.kind <;> simp_all [TokenKind.inSequence, TokenKind.opposite]
  · exact arrives_pure ⟨hdepth, h.drop fun hk => hne (hclose.mpr hk)⟩

/-- A loop that gives up. -/
theorem stepped_giveUp {a : σ} (hk : k.isCloser) (h : c.Fenced f (k :: closers)) :
    Ends (skipPast k >>= fun _ => pure (a, false)) c (Stepped f k closers) :=
  (exits_skipPast hk h).seq fun _ _ h => arrives_pure h

end HclSyntax.Parser
