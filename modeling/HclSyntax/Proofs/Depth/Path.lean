import HclSyntax.Proofs.Complete.Expression
import HclSyntax.Proofs.Depth.Template
import HclSyntax.Proofs.Steady

namespace HclSyntax

theorem Mark.in_mode {k : TokenKind} {ts : List Token} (h : Mark true k ts) (hk : k ≠ .newline) :
    ∀ newlines, Mark newlines k ts
  | true => h
  | false => by
    obtain ⟨t, rfl, ht⟩ := h
    exact ⟨t, rfl, ht.newlines_hidden hk⟩

namespace Cursor

variable {c : Cursor}

/-- No bracket is next, unless behind an operand. -/
def Settled (c : Cursor) : Prop := c.PastOperand ∨ c.peek.kind ≠ .openBracket

/-- An expression is next, where newlines do not count, and then a closing bracket. -/
def AtKey (c : Cursor) : Prop :=
  c.InMode false ∧ ∃ e ts hs close post, c.rest = ts ++ (hs ++ close :: post) ∧
    Derives (.expression false e) ts ∧ (∀ t ∈ hs, t.hidden false) ∧ close.kind = .closeBracket

end Cursor

namespace Parser

variable {src : TokenList} {e : Parser Expr} {c : Cursor} {outer : List TokenKind}

/-- Behind an operand, inside no more brackets than `outer`. -/
def Behind (src : TokenList) (outer : List TokenKind) (c : Cursor) : Prop :=
  c.AtDepth src outer ∧ c.PastOperand

theorem Behind.passed {k : TokenKind} (h : c.AtDepth src outer) (hk : c.peek.kind = k)
    (he : k.endsOperand) (ho : k.isOpener = false) : Behind src outer c.advance :=
  ⟨h.passed hk ho, (Cursor.just_advance hk).pastOperand he⟩

theorem Behind.name (h : c.AtOperand src outer) (hk : c.peek.kind = .identifier) :
    Behind src outer c.advance := ⟨h.depth.passed hk rfl, h.leads.past_name hk⟩

theorem arrives_splatStep (a : SplatSteps) (h : Behind src outer c) :
    Arrives src.harmless (splatStep a) c fun _ c' => Behind src outer c' := by
  refine arrives_peekKind_bind ?_
  split
  · exact arrives_pure h
  rename_i hk
  have hk : c.peek.kind = .dot := Decidable.of_not_not hk
  have hname : c.advance.AtOperand src outer := .passed h.1 hk rfl rfl
  have h : Behind src outer c.advance := .passed h.1 hk rfl rfl
  refine arrives_read_bind (arrives_peek_bind ?_)
  dsimp only
  split
  · rename_i hk
    exact arrives_skip_bind (arrives_pure (.name hname hk))
  · rename_i hk
    refine arrives_skip_bind ((still_numberValue _).seq fun _ => arrives_pure ?_)
    exact .passed h.1 hk rfl rfl
  · exact (still_reportFirst _ _ _).seq fun _ => still_recover.seq fun _ => arrives_pure h

theorem arrives_attributeSplat (source : Expr) (dot star : Token) (h : Behind src outer c) :
    Arrives src.harmless (attributeSplat source dot star) c fun _ c' => Behind src outer c' := by
  refine Arrives.seq (P := fun _ c' => Behind src outer c') ?_ fun _ _ h => arrives_pure h
  exact .iterate (I := fun _ c => Behind src outer c) advances_splatStep
    (fun a _ h => (arrives_splatStep a h).mono fun _ _ h => by split <;> exact h) h.1.ends h

theorem arrives_dotSuffix (source : Expr) (h : c.AtDepth src outer) (hk : c.peek.kind = .dot) :
    Arrives src.harmless (dotSuffix source) c fun _ c' => Behind src outer c' := by
  have hname : c.advance.AtOperand src outer := .passed h hk rfl rfl
  have hdot : c.advance.Just (·.kind = .dot) := Cursor.just_advance hk
  have h : Behind src outer c.advance := .passed h hk rfl rfl
  refine arrives_read_bind (arrives_peek_bind ?_)
  split
  · rename_i hk
    exact arrives_skip_bind (arrives_pure (.name hname hk))
  · rename_i hk
    refine arrives_skip_bind (arrives_attributeSplat _ _ _ ?_)
    exact ⟨h.1.passed hk rfl, hdot.past_star hk⟩
  · exact (still_report _ _ _).seq fun _ => still_recover.seq fun _ => arrives_pure h

/-- The parser stops in front of the bracket behind a key, unless nothing is left. -/
def StopsAtBracket (e : Parser Expr) : Prop := ∀ ⦃c⦄, c.AtKey → ∀ b,
  (e ⟨c, b⟩).state.cursor.rest = [] ∨ (e ⟨c, b⟩).state.cursor.peek.kind = .closeBracket

/-- Suffixes leave no bracket open, and stop in front of none. -/
def KeepsSuffixes (src : TokenList) (suffixes : Expr → Parser Expr) : Prop :=
  ∀ source ⦃c outer⦄, c.AtDepth src outer → c.Settled → Arrives src.harmless (suffixes source) c
    fun _ c' => c'.AtDepth src outer ∧ c'.peek.kind ≠ .openBracket

/-- A key is read up to its bracket, and begins with no star. -/
theorem reads_key (h : c.AtKey) : startsTerm c.peek.kind ∧ ∃ x c',
    expression.Reads c x c' ∧ c'.peek.kind = .closeBracket := by
  obtain ⟨hm, e, ts, hs, close, post, hr, hd, hh, hc⟩ := h
  have hf : c.Faces false (ts ++ (hs ++ [close])) := ⟨hm, post, by simp [hr]⟩
  have hclose := (hf.right.mark ⟨close, hc, hs, rfl, hh, by simp [Token.hidden, hc]⟩).1
  have hlen : ts.length < c.remaining + 1 := by
    rw [Cursor.remaining, hr, List.length_append]
    omega
  obtain ⟨hstart, x, hx, -⟩ := hd.read _ hlen c hf.left (by rw [hclose]; decide)
  exact ⟨hstart, x, _, hx.congr rfl, hclose⟩

theorem stopsAtBracket_expression : StopsAtBracket expression := by
  intro c hc b
  obtain ⟨-, x, c', hx, hclose⟩ := reads_key hc
  have hread : expression ⟨c, false⟩ = ⟨x, [], c', false⟩ := hx
  have hsame (b : Bool) : (expression ⟨c, b⟩).state.cursor = c' := by
    cases b with
    | false => rw [hread]
    | true => rw [steady.expression.same c (by rw [hread]), hread]
  exact .inr (by rw [hsame, hclose])

/-- What is behind the bracket that closes a key, or behind the end. -/
theorem closed_advance (h : c.AtDepth src (.closeBracket :: outer))
    (hc : c.rest = [] ∨ c.peek.kind = .closeBracket) :
    c.advance.AtDepth src outer ∧ c.advance.Just (·.kind = .closeBracket) := by
  rcases hc with hr | hk
  · have hk : c.peek.kind = .eof := by rw [Cursor.peek, hr]; exact h.ends
    obtain ⟨pending, hp, -⟩ := h
    exact ⟨⟨[], hp.past_end hk, List.nil_sublist _⟩, .inl (hp.rest_of_eof hk)⟩
  · exact ⟨h.closer hk rfl, Cursor.just_advance hk⟩

/-- A bracket that is missing is searched for. -/
theorem arrives_missingBracket {α : Type} {f : Unit → Parser α} {Q : α → Cursor → Prop}
    (h : c.AtDepth src outer ∧ c.Just (·.kind = .closeBracket)) {wrong : Prop} [Decidable wrong]
    (p : Problem) (r : SourceRange)
    (hf : ∀ c', c'.AtDepth src outer ∧ c'.Just (·.kind = .closeBracket) →
      Arrives src.harmless (f ()) c' Q) :
    Arrives src.harmless
      (if wrong then report p r none >>= fun _ => skipPast .closeBracket >>= f else f ()) c Q := by
  split
  · refine (still_report _ _ _).seq fun _ => ?_
    have hready := (h.1.mono (List.sublist_cons_self .closeBracket outer)).ready
    exact (arrives_skipPast rfl hready).seq fun _ c' hc => hf c' hc
  · exact hf c h

variable (he : KeepsOperand src e) (hk : StopsAtBracket e)
include he hk

/-- Whether the key is lost or read, its bracket is closed. -/
theorem arrives_indexKey (h : c.AtOperand src (.closeBracket :: outer))
    (hc : (c.enter false).AtKey) : Arrives src.harmless (indexKey e) c fun _ c' =>
      c'.AtDepth src outer ∧ c'.Just (·.kind = .closeBracket) := by
  have hclose : Arrives src.harmless e (c.enter false) fun _ c' =>
      c'.AtDepth src (.closeBracket :: outer) ∧
        (c'.rest = [] ∨ c'.peek.kind = .closeBracket) :=
    fun b hd => ⟨he (h.enter false) b hd, hk hc b⟩
  refine Arrives.withNewlines (Arrives.mono (P := fun _ c' => c'.AtDepth src outer ∧
    c'.Just (·.kind = .closeBracket)) ?_ fun _ _ h => ⟨h.1.leave, h.2⟩)
  refine hclose.track_seq fun key lost c' h => ?_
  dsimp only
  split
  · exact (arrives_skipPast rfl h.1.ready).seq fun _ _ hc => arrives_pure hc
  refine arrives_read_bind (still_recovering.seq fun b => ?_)
  exact arrives_missingBracket (closed_advance h.1 h.2) _ _ fun _ hc => arrives_pure hc

theorem arrives_index (collection : Expr) (opening : Token)
    (h : c.AtOperand src (.closeBracket :: outer)) (hc : (c.enter false).AtKey) :
    Arrives src.harmless (index e collection opening) c fun _ c' =>
      c'.AtDepth src outer ∧ c'.Just (·.kind = .closeBracket) := by
  refine (arrives_indexKey he hk h hc).seq fun key c' h => still_previousRange.seq fun _ => ?_
  split <;> exact arrives_pure h

variable {suffixes : Expr → Parser Expr} (hs : KeepsSuffixes src suffixes)

omit he hk in
include hs in
theorem arrives_fullSplat (source : Expr) (opening : Token)
    (h : c.AtDepth src (.closeBracket :: outer)) (hc : c.peek.kind = .closeBracket) :
    Arrives src.harmless (fullSplat suffixes source opening) c fun _ c' =>
      c'.AtDepth src outer ∧ c'.peek.kind ≠ .openBracket := by
  refine arrives_read_bind (still_recovering.seq fun b => ?_)
  refine arrives_missingBracket (closed_advance h (.inr hc)) _ _ fun c' hc => ?_
  refine still_previousRange.seq fun _ => ?_
  exact (hs _ hc.1 (.inl (hc.2.pastOperand rfl))).seq fun _ _ h => arrives_pure h

variable (ho : Orderly src.body)
include hs ho

/-- The bracket that follows an operand is closed, and no more are left open. -/
theorem arrives_bracketSuffix (source : Expr) (h : c.AtDepth src outer) (hj : c.Settled)
    (hopen : c.peek.kind = .openBracket) : Arrives src.harmless (bracketSuffix e suffixes source) c
      fun _ c' => c'.AtDepth src outer ∧ c'.Settled := by
  have hin : c.advance.AtOperand src (.closeBracket :: outer) := .opened h hopen rfl rfl
  obtain ⟨pending, hp, -⟩ := h
  have hpast : c.PastOperand := hj.resolve_right (absurd hopen)
  obtain ⟨inner, close, post, hr, hclose, hkey⟩ := hp.key ho hopen hpast
  refine arrives_read_bind (arrives_peekKind_bind ?_)
  rcases hkey with ⟨ts, hs', rfl, hstar, hh⟩ | ⟨e', ts, hs', rfl, hd, hh⟩
  · -- a splat
    have hf : c.advance.Faces c.advance.newlinesCount (ts ++ (hs' ++ [close])) :=
      ⟨⟨rfl, hin.depth.ends⟩, post, by simp [hr]⟩
    obtain ⟨hkind, ha⟩ := hf.left.mark (hstar.in_mode (by decide) _)
    have hend : Mark true .closeBracket (hs' ++ [close]) :=
      ⟨close, hclose, hs', rfl, hh, by simp [Token.hidden, hclose]⟩
    have hnext := (hf.right.mark (hend.in_mode (by decide) _)).1
    rw [← ha] at hnext
    rw [if_pos hkind]
    refine arrives_skip_bind ?_
    exact (arrives_fullSplat hs _ _ (hin.depth.passed hkind rfl) hnext).mono
      fun _ _ h => ⟨h.1, .inr h.2⟩
  · -- an index
    have hat : (c.advance.enter false).AtKey :=
      ⟨⟨rfl, hin.depth.ends⟩, e', ts, hs', close, post, by simp [Cursor.enter, hr], hd, hh, hclose⟩
    have hne : c.advance.peek.kind ≠ .star := by
      intro hstar
      have hstart := (reads_key hat).1
      have hpeek := Cursor.peek_enter_false hin.depth.ends (by simp [hstar]) (by simp [hstar])
      rw [hpeek, hstar] at hstart
      cases hstart
    rw [if_neg hne]
    exact (arrives_index he hk _ _ hin hat).mono fun _ _ h => ⟨h.1, .inl (h.2.pastOperand rfl)⟩

theorem arrives_suffixStep (source : Expr) (h : c.AtDepth src outer ∧ c.Settled) :
    Arrives src.harmless (suffixStep e suffixes source) c fun r c' =>
      if r.2 then c'.AtDepth src outer ∧ c'.Settled
      else c'.AtDepth src outer ∧ c'.peek.kind ≠ .openBracket := by
  refine arrives_peekKind_bind ?_
  split
  · rename_i hdot
    exact (arrives_dotSuffix _ h.1 hdot).seq fun _ _ h => arrives_pure ⟨h.1, .inl h.2⟩
  · rename_i hopen
    exact (arrives_bracketSuffix he hk hs ho _ h.1 h.2 hopen).seq fun _ _ h => arrives_pure h
  · rename_i hopen
    exact arrives_pure ⟨h.1, hopen⟩

end Parser

end HclSyntax
