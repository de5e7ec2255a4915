import HclSyntax.Proofs.Depth.Collection

namespace HclSyntax.Parser

variable {src : TokenList} {e : Parser Expr}

section
variable (ho : Orderly src.body)
include ho

/-- Whatever token is read inside a bracket of a kind that does not stand directly inside itself,
the closer of the bracket is still the next one of its kind. -/
theorem ready_advance {k : TokenKind} {c : Cursor} {outer : List TokenKind}
    (hk : k ∈ [TokenKind.closeQuote, .closeHeredoc, .sequenceEnd])
    (h : c.AtDepth src (k :: outer)) : c.advance.Ready src k outer := by
  refine h.ready_advance fun hopen hkind below hp => hp.apart ho ?_ hkind
  subst hkind
  cases hc : c.peek.kind <;> simp_all [TokenKind.opposite, TokenKind.isOpener]

theorem loops_quotedStep (opening : Token) :
    LoopsFrom Cursor.AtDepth src .closeQuote (quotedStep opening) := by
  intro q c outer h
  -- a sequence inside the string is passed over as a whole
  have hsequence {k : TokenKind} (hk : c.peek.kind = k) (hopens : k.isOpener)
      (hs : k.opposite = .sequenceEnd) (p : Problem) (x : Option SourceRange) (text : QuotedText) :
      Arrives src.harmless (report p c.peek.range x >>= fun _ => skipPast .sequenceEnd >>= fun _ =>
        pure (text, true)) c.advance fun r c' => if r.2 then c'.AtDepth src (.closeQuote :: outer)
          else c'.AtDepth src outer ∧ c'.Just (·.kind = .closeQuote) := by
    have hopen := h.opened hk hopens
    rw [hs] at hopen
    exact (still_report _ _ _).seq fun _ =>
      (arrives_skipPast rfl hopen.ready).seq fun _ _ hc => arrives_pure hc.1
  refine arrives_read_bind ?_
  split
  · rename_i hk
    exact arrives_pure ⟨h.closer hk rfl, Cursor.just_advance hk⟩
  · rename_i hk
    exact (still_chunk _).seq fun _ => arrives_pure (h.passed hk rfl)
  · rename_i hk
    exact hsequence hk rfl rfl _ _ _
  · rename_i hk
    exact hsequence hk rfl rfl _ _ _
  · rename_i hk
    obtain ⟨pending, hp, -⟩ := h
    exact (still_report _ _ _).seq fun _ => arrives_pure
      ⟨⟨[], hp.past_end hk, List.nil_sublist _⟩, .inl (hp.rest_of_eof hk)⟩
  · exact (still_report _ _ _).seq fun _ => arrives_giveUp rfl (ready_advance ho (by simp) h)

theorem closes_quotedString (opening : Token) :
    Closes src .closeQuote (quotedString opening) :=
  ((loops_quotedStep ho opening).iterate advances_quotedStep id _).still fun _ => still_pure _

omit ho in
theorem closes_closeSequence (p : Problem) (start : SourceRange) :
    Closes src .sequenceEnd (closeSequence p start) := by
  intro c outer h
  refine arrives_peek_bind ?_
  split
  · rename_i hk
    exact arrives_close h hk rfl fun _ hc => arrives_pure hc
  · exact (still_reportFirst _ _ _).seq fun _ =>
      (closes_skipPast rfl).still (fun _ => still_pure _) h

variable (he : KeepsOperand src e)
include he

omit ho in
theorem keeps_loopCollection (key : Option String) (value : String) :
    Keeps src (loopCollection e key value) := by
  intro c outer h
  refine arrives_atKeyword_bind fun b hb => ?_
  split
  · rename_i hk
    refine arrives_skip_bind ?_
    exact (he (.keyword h (hb hk) (.inl rfl))).seq fun _ _ h => arrives_pure h
  · exact arrives_peek_bind ((still_reportFirst _ _ _).seq fun _ => arrives_pure h)

/-- A directive without a meaning is skipped, so it matters only where its end is. -/
def Directs (src : TokenList) (p : Parser (Option Directive)) : Prop :=
  ∀ ⦃c outer⦄, c.AtDepth src (.sequenceEnd :: outer) → Arrives src.harmless p c fun d c' =>
    if d.isSome then c'.AtDepth src (.sequenceEnd :: outer) else c'.Ready src .sequenceEnd outer

omit ho he in
theorem KeepsFrom.directs {p : Parser (Option Directive)} (hp : Keeps src p) : Directs src p :=
  fun _ _ h => (hp h).mono fun d _ h => by
    cases d with
    | none => exact h.ready
    | some => exact h

theorem directs_loopHeader : Directs src (loopHeader e) := by
  intro c outer h
  refine arrives_read_bind ?_
  split
  · exact (still_reportFirst _ _ _).seq fun _ => arrives_pure (ready_advance ho (by simp) h)
  rename_i hk
  have h := h.passed (Decidable.of_not_not hk) rfl
  refine arrives_peekKind_bind ?_
  split
  · exact (keeps_loopCollection he _ _).directs h
  rename_i hk
  have h := h.passed (Decidable.of_not_not hk) rfl
  refine arrives_skip_bind (arrives_read_bind ?_)
  split
  · exact (still_reportFirst _ _ _).seq fun _ => arrives_pure (ready_advance ho (by simp) h)
  · rename_i hk
    exact (keeps_loopCollection he _ _).directs (h.passed (Decidable.of_not_not hk) rfl)

/-- A condition begins behind its keyword, which is no variable. -/
theorem arrives_directiveContent {c : Cursor} {outer : List TokenKind} (opening : Token)
    (h : c.AtDepth src (.sequenceEnd :: outer)) (hk : c.peek.kind = .identifier) :
    Arrives src.harmless (directiveContent e opening c.peek) c.advance fun d c' =>
      if d.isSome then c'.AtDepth src (.sequenceEnd :: outer)
      else c'.Ready src .sequenceEnd outer := by
  have hpast := h.passed hk rfl
  unfold directiveContent
  split
  · rename_i hword
    have hleads : c.peek.leads := by simp [Token.leads, Token.isConnective, hk, hword]
    exact (he (.advance hpast hleads)).seq fun _ _ h => arrives_pure h
  · exact (keeps_pure _).directs hpast
  · exact (keeps_pure _).directs hpast
  · exact directs_loopHeader ho he hpast
  · exact (keeps_pure _).directs hpast
  · exact ((still_reportFirst _ _ _).keeps.bind fun _ => keeps_pure _).directs hpast

theorem closes_directive (opening : Token) : Closes src .sequenceEnd (directive e opening) := by
  intro c outer h
  refine arrives_peek_bind ?_
  split
  · exact (still_reportFirst _ _ _).seq fun _ =>
      (closes_skipPast rfl).still (fun _ => still_pure _) h
  rename_i hk
  have hcontent := arrives_directiveContent ho he opening h (Decidable.of_not_not hk)
  refine arrives_skip_bind (hcontent.seq fun d c' h => ?_)
  split
  · exact (arrives_skipPast rfl h).seq fun _ _ hc => arrives_pure hc
  · exact (closes_closeSequence _ _).still
      (fun _ => still_previousRange.bind fun _ => still_pure _) h

omit ho in
theorem closes_interpolation (start : SourceRange) (opening : Token) :
    ClosesOperand src .sequenceEnd (interpolation e start opening) :=
  ((he.closes fun _ => (closes_closeSequence _ _).still fun _ => still_pure _).withNewlines
    (·.enter false)).still fun _ => still_previousRange.bind fun _ => still_pure _

variable {closer : TokenKind} (hc : closer ∈ [TokenKind.closeQuote, .closeHeredoc])
include hc

theorem loops_templateStep (start : SourceRange) :
    LoopsFrom Cursor.AtDepth src closer (templateStep e closer start) := by
  have hcloser : closer.isCloser := by
    simp only [List.mem_cons, List.not_mem_nil, or_false] at hc
    rcases hc with rfl | rfl <;> rfl
  intro a c outer h
  refine arrives_read_bind ?_
  split
  · rename_i hk
    exact arrives_pure ⟨h.closer hk hcloser, Cursor.just_advance hk⟩
  split
  · rename_i hk
    exact (still_chunk _).seq fun _ => arrives_pure (h.passed hk rfl)
  · rename_i hk
    exact (still_chunk _).seq fun _ => arrives_pure (h.passed hk rfl)
  · rename_i hk
    have hopen := Cursor.AtOperand.opened h hk rfl rfl
    exact (closes_interpolation he _ _ hopen).seq fun _ _ h => arrives_pure h.1
  · rename_i hk
    have hopen := h.opened hk rfl
    exact ((closes_directive ho he _).withNewlines (·.enter false) hopen).seq
      fun _ _ h => arrives_pure h.1
  · refine (still_reportFirst _ _ _).seq fun _ => ?_
    have hmem : closer ∈ [TokenKind.closeQuote, .closeHeredoc, .sequenceEnd] := by
      simp only [List.mem_cons, List.not_mem_nil, or_false] at hc ⊢
      exact hc.imp_right .inl
    dsimp only
    split
    · rename_i hk
      obtain ⟨pending, hp, -⟩ := h
      exact still_recover.seq fun _ => arrives_pure
        ⟨⟨[], hp.past_end hk, List.nil_sublist _⟩, .inl (hp.rest_of_eof hk)⟩
    · exact (arrives_skipPast hcloser (ready_advance ho hmem h)).seq fun _ _ h =>
        still_recover.seq fun _ => arrives_pure h

theorem closes_template (hf : Framed e) (start : SourceRange) :
    Closes src closer (template e start closer) := by
  intro c outer h
  refine arrives_peek_bind ?_
  refine ((loops_templateStep ho he hc _).iterate (advances_templateStep hf closer _) id _).still
    (fun a => ?_) h
  refine still_previousRange.bind fun close => (still_tell _).bind fun _ => ?_
  split <;> exact still_pure _

end

end HclSyntax.Parser
