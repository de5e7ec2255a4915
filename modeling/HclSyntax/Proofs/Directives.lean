import HclSyntax.Proofs.Fence.Expression
import HclSyntax.Proofs.Outermost

namespace HclSyntax

namespace Cursor

/-- At a loop that ends where a variable should be, the first one or the one after the comma. -/
def CutsShort (c : Cursor) : Prop :=
  c.peek.kind = .identifier ∧ c.peek.text = "for" ∧ (c.advance.peek.kind = .sequenceEnd ∨
    c.advance.peek.kind = .identifier ∧ c.advance.advance.peek.kind = .comma ∧
      c.advance.advance.advance.peek.kind = .sequenceEnd)

instance (c : Cursor) : Decidable c.CutsShort := inferInstanceAs (Decidable (_ ∧ _))

variable {c : Cursor}

/-- A token is passed, if one is left. -/
theorem rest_advance_suffix : c.advance.rest <:+ c.rest.tail := by
  have htail {l l' : List Token} (h : l <:+ l') : l.tail <:+ l'.tail := by
    obtain ⟨front, rfl⟩ := h
    cases front with
    | nil => exact List.suffix_refl _
    | cons t front => exact (List.tail_suffix _).trans (List.suffix_append _ _)
  have hrest : c.advance.rest = (c.rest.dropWhile c.hides).tail := by
    unfold advance
    split
    · rename_i hd
      rw [hd]
      rfl
    · rename_i hd
      rw [hd]
      rfl
  exact hrest ▸ htail (List.dropWhile_suffix _)

end Cursor

namespace Parser

variable {f : Fence} {c : Cursor} {e : Parser Expr}

theorem ends_closeSequence_fence (p : Problem) (start : SourceRange) (h : c.Fenced f []) :
    Ends (closeSequence p start) c fun _ c' => c'.rest = f.after := by
  refine arrives_peek_bind ?_
  split
  · rename_i hk
    exact arrives_skip_bind (arrives_pure (h.rest_advance hk))
  · exact (still_reportFirst _ _ _).seq fun _ =>
      (ends_skipPast_fence h).seq fun _ _ h => arrives_pure h

section
variable (he : Stays f e)
include he

theorem stays_loopCollection (key : Option String) (value : String) :
    Stays f (loopCollection e key value) := by
  intro c closers h
  refine arrives_atKeyword_bind fun b hb => ?_
  split
  · rename_i hk
    have hpast := h.passed (Token.kind_of_isKeyword (hb hk)) rfl
    exact arrives_skip_bind ((he hpast).seq fun _ _ h => arrives_pure h)
  · exact arrives_peek_bind ((still_reportFirst _ _ _).seq fun _ => arrives_pure h)

/-- A variable is read before it is known to be one. -/
theorem ends_loopHeader_fenced (h : c.Fenced f []) (hfirst : c.peek.kind ≠ .sequenceEnd)
    (hsecond : c.peek.kind = .identifier → c.advance.peek.kind = .comma →
      c.advance.advance.peek.kind ≠ .sequenceEnd) :
    Ends (loopHeader e) c fun _ c' => c'.Fenced f [] := by
  have h₁ := h.drop hfirst
  refine arrives_read_bind ?_
  split
  · exact (still_reportFirst _ _ _).seq fun _ => arrives_pure h₁
  rename_i hname
  refine arrives_peekKind_bind ?_
  split
  · exact stays_loopCollection he _ _ h₁
  rename_i hcomma
  have h₂ := h₁.passed (Decidable.of_not_not hcomma) rfl
  have h₃ := h₂.drop (hsecond (Decidable.of_not_not hname) (Decidable.of_not_not hcomma))
  refine arrives_skip_bind (arrives_read_bind ?_)
  split
  · exact (still_reportFirst _ _ _).seq fun _ => arrives_pure h₃
  · exact stays_loopCollection he _ _ h₃

theorem ends_directive_fence (opening : Token) (h : c.Fenced f []) (hc : ¬c.CutsShort) :
    Ends (directive e opening) c fun _ c' => c'.rest = f.after := by
  have hlost {c : Cursor} (h : c.Fenced f []) : Ends (skipPast .sequenceEnd >>= fun _ =>
      pure ((none : Option TemplatePart), false)) c fun _ c' => c'.rest = f.after :=
    (ends_skipPast_fence h).seq fun _ _ h => arrives_pure h
  refine arrives_peek_bind ?_
  split
  · exact (still_reportFirst _ _ _).seq fun _ => hlost h
  rename_i hk
  have hk : c.peek.kind = .identifier := Decidable.of_not_not hk
  have h₁ := h.passed hk rfl
  have hcontent : Ends (directiveContent e opening c.peek) c.advance
      fun _ c' => c'.Fenced f [] := by
    unfold directiveContent
    split
    · exact (he h₁).seq fun _ _ h => arrives_pure h
    · exact arrives_pure h₁
    · exact arrives_pure h₁
    · rename_i hfor
      refine ends_loopHeader_fenced he h₁ (fun hend => hc ⟨hk, hfor, .inl hend⟩)
        fun hname hcomma hend => hc ⟨hk, hfor, .inr ⟨hname, hcomma, hend⟩⟩
    · exact arrives_pure h₁
    · exact (still_reportFirst _ _ _).seq fun _ => arrives_pure h₁
  refine arrives_skip_bind (hcontent.seq fun d c' h => ?_)
  split
  · exact hlost h
  · exact (ends_closeSequence_fence _ _ h).seq fun _ _ h =>
      still_previousRange.seq fun _ => arrives_pure h

omit he in
/-- A loop that is cut short is given up behind the marker, and has passed that. -/
theorem ends_loopHeader_cutShort (h : c.Fenced f []) (hc : c.peek.kind = .sequenceEnd ∨
    c.peek.kind = .identifier ∧ c.advance.peek.kind = .comma ∧
      c.advance.advance.peek.kind = .sequenceEnd) :
    Ends (loopHeader e) c fun d c' => d = none ∧ c'.rest = f.after ∧ c'.eof.kind = .eof := by
  rcases hc with hk | ⟨hname, hcomma, hk⟩
  · refine arrives_read_bind ?_
    rw [if_pos (by rw [hk]; decide)]
    exact (still_reportFirst _ _ _).seq fun _ =>
      arrives_pure ⟨rfl, h.rest_advance hk, h.ends_advance⟩
  · have h₂ := (h.passed hname rfl).passed hcomma rfl
    refine arrives_read_bind ?_
    rw [if_neg (not_not_intro hname)]
    refine arrives_peekKind_bind ?_
    rw [if_neg (not_not_intro hcomma)]
    refine arrives_skip_bind (arrives_read_bind ?_)
    rw [if_pos (by rw [hk]; decide)]
    exact (still_reportFirst _ _ _).seq fun _ =>
      arrives_pure ⟨rfl, h₂.rest_advance hk, h₂.ends_advance⟩

omit he in
/-- The search for a marker begins behind that of the loop, and takes a token at least. -/
theorem ends_directive_cutShort (opening : Token) (h : c.Fenced f []) (hc : c.CutsShort) :
    Ends (directive e opening) c fun _ c' => c'.rest <:+ f.after.tail := by
  obtain ⟨hk, hfor, hc⟩ := hc
  have h₁ := h.passed hk rfl
  refine arrives_peek_bind ?_
  rw [if_neg (not_not_intro hk)]
  refine arrives_skip_bind ?_
  unfold directiveContent
  rw [hfor]
  refine (ends_loopHeader_cutShort h₁ hc).seq fun d c' ⟨hd, hr, he⟩ => ?_
  subst hd
  refine Arrives.seq (P := fun _ c' => c'.rest <:+ f.after.tail) (fun b _ => ?_)
    fun _ _ h => arrives_pure h
  rw [← hr]
  exact (passes_skipPast _ ⟨c', b⟩ he).suffix.trans Cursor.rest_advance_suffix

end

end Parser

section
variable (opening : Token) (s : ParseState) (D post : List Token) (close : Token)

/-- Whatever a directive says, the parser stops right behind its closing marker, unless it is a loop
that is cut short. -/
theorem directives_stop_behind_marker (hs : s.Ends) (hr : s.cursor.rest = D ++ close :: post)
    (hclose : close.kind = .sequenceEnd) (hD : ∀ t ∈ D, t.kind.inSequence) (hb : closes D [])
    (hc : ¬s.cursor.CutsShort) :
    (Parser.directive Parser.expression opening s).state.cursor =
      { s.cursor with passed := close :: (D.reverse ++ s.cursor.passed), rest := post } := by
  have hfenced : s.cursor.Fenced ⟨close, post, hclose⟩ [] :=
    ⟨hs, D, [], hr, hD, hb, List.nil_sublist _⟩
  have hrest := Parser.ends_directive_fence Parser.stays_expression opening hfenced hc
    s.recovering fun _ _ => trivial
  have hframed : (Parser.directive Parser.expression opening).Framed :=
    Parser.framed.directive Parser.framed.expression
  have hsplit : s.cursor.rest = (D ++ [close]) ++
      (Parser.directive Parser.expression opening s).state.cursor.rest := by
    rw [hrest]
    simpa using hr
  have hstop := (hframed s).eq_of_rest hsplit
  rw [hrest] at hstop
  simpa using hstop

/-- A loop that is cut short takes something that follows its marker. -/
theorem cut_short_loops_swallow (hs : s.Ends) (hr : s.cursor.rest = D ++ close :: post)
    (hclose : close.kind = .sequenceEnd) (hD : ∀ t ∈ D, t.kind.inSequence) (hb : closes D [])
    (hc : s.cursor.CutsShort) :
    (Parser.directive Parser.expression opening s).state.cursor.rest <:+ post.tail :=
  Parser.ends_directive_cutShort (f := ⟨close, post, hclose⟩) opening
    ⟨hs, D, [], hr, hD, hb, List.nil_sublist _⟩ hc s.recovering fun _ _ => trivial

end

def openingMarker : Token := .placed .directive [0x21, 0x7B] 1 1 0

def closingMarker (width : UInt32) : Token := .placed .sequenceEnd [0x7D] 1 (width + 3) (width + 2)

def textBehind (width : UInt32) : List Token :=
  [.placed .plainChunk [0x61] 1 (width + 4) (width + 3), .placed .eof [] 1 (width + 5) (width + 4)]

/-- The place behind the opening marker. -/
def atDirective (inside : List Token) (width : UInt32) : ParseState :=
  ⟨⟨[openingMarker], inside ++ closingMarker width :: textBehind width,
    .placed .eof [] 1 (width + 5) (width + 4), [false]⟩, false⟩

/-- A loop without its second keyword, `for v (xs)`. -/
def loopWithoutIn : List Token :=
  [.placed .identifier [0x66, 0x6F, 0x72] 1 3 2, .placed .identifier [0x76] 1 7 6,
    .placed .openParen [0x28] 1 9 8, .placed .identifier [0x78, 0x73] 1 10 9,
    .placed .closeParen [0x29] 1 12 11]

/-- Nothing but the keyword of a loop. -/
def bareLoop : List Token := [.placed .identifier [0x66, 0x6F, 0x72] 1 3 2]

theorem loopWithoutIn_stops_behind_marker :
    (closes loopWithoutIn [] ∧ (∀ t ∈ loopWithoutIn, t.kind.inSequence) ∧
      ¬(atDirective loopWithoutIn 10).cursor.CutsShort) ∧
    (Parser.directive Parser.expression openingMarker
      (atDirective loopWithoutIn 10)).state.cursor.rest = textBehind 10 := by
  have hb : closes loopWithoutIn [] := by decide
  have hD : ∀ t ∈ loopWithoutIn, t.kind.inSequence := by decide
  have hc : ¬(atDirective loopWithoutIn 10).cursor.CutsShort := by decide +kernel
  refine ⟨⟨hb, hD, hc⟩, ?_⟩
  rw [directives_stop_behind_marker openingMarker (atDirective loopWithoutIn 10) loopWithoutIn
    (textBehind 10) (closingMarker 10) rfl rfl rfl hD hb hc]

/-- In front of its marker there is nothing but the keyword, and the text behind it is gone. -/
theorem bareLoop_swallows_text :
    (atDirective bareLoop 3).Ends ∧
      (atDirective bareLoop 3).cursor.rest = bareLoop ++ closingMarker 3 :: textBehind 3 ∧
      (closingMarker 3).kind = .sequenceEnd ∧ (∀ t ∈ bareLoop, t.kind.inSequence) ∧
      closes bareLoop [] ∧
      (Parser.directive Parser.expression openingMarker
        (atDirective bareLoop 3)).state.cursor.rest ≠ textBehind 3 := by
  refine ⟨rfl, rfl, rfl, by decide, by decide, ?_⟩
  decide +kernel

end HclSyntax
