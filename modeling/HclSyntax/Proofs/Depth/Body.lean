import HclSyntax.Proofs.Depth.Expression

namespace HclSyntax.Parser

variable {src : TokenList} {c : Cursor} {outer : List TokenKind}

/-- At the beginning of an item. -/
def Starts (src : TokenList) (outer : List TokenKind) (c : Cursor) : Prop :=
  c.AtDepth src outer ∧ c.Just (·.kind = .newline)

theorem starts_advance (h : c.AtDepth src outer)
    (hk : c.peek.kind = .newline ∨ c.peek.kind = .eof) : Starts src outer c.advance := by
  rcases hk with hk | hk
  · exact ⟨h.passed hk rfl, Cursor.just_advance hk⟩
  · refine ⟨h.passed hk rfl, .inl ?_⟩
    obtain ⟨pending, hp, -⟩ := h
    exact hp.rest_of_eof hk

theorem arrives_endOfLine (name : Token) (problem : TokenKind → Problem)
    (h : c.AtDepth src outer) :
    Arrives src.harmless (endOfLine name problem) c fun _ c' => Starts src outer c' := by
  refine arrives_peek_bind ?_
  split
  · rename_i hk
    exact fun _ _ => starts_advance h (.inl hk)
  · rename_i hk
    exact fun _ _ => starts_advance h (.inr hk)
  · exact (still_reportFirst _ _ _).seq fun _ => arrives_skipItem h

variable (ho : Orderly src.body)
include ho

theorem arrives_attributeValue (name equals : Token) (h : c.AtOperand src outer) :
    Arrives src.harmless (attributeValue name equals false) c fun a c' =>
      a.nameRange = name.range ∧ Starts src outer c' := by
  refine (keeps_expression ho h).track_seq fun e lost c' h => still_previousRange.seq fun stop => ?_
  dsimp only
  rw [if_neg Bool.false_ne_true]
  split
  · exact (arrives_skipItem h).seq fun _ _ h => arrives_pure ⟨rfl, h⟩
  · exact (arrives_endOfLine _ _ h).seq fun _ _ h => arrives_pure ⟨rfl, h⟩

omit ho in
theorem closes_closeSingleLine : Closes src .closeBrace closeSingleLine := by
  intro c outer h
  refine arrives_peek_bind ?_
  split
  · rename_i hk
    exact fun _ _ => ⟨h.closer hk rfl, Cursor.just_advance hk⟩
  · split
    · exact (still_report _ _ _).seq fun _ => closes_skipPast rfl h
    · exact (still_report _ _ _).seq fun _ => closes_skipPast rfl h
    · exact (still_reportFirst _ _ _).seq fun _ => closes_skipPast rfl h

/-- At the beginning of an item or of a block. -/
def Fresh (c : Cursor) : Prop := c.Just fun t => t.kind = .newline ∨ t.kind = .openBrace

/-- Whatever stands in the place of an item, the brace of the block is the next that closes. -/
theorem ready_item (h : c.AtDepth src (.closeBrace :: outer)) (hf : Fresh c) :
    c.advance.Ready src .closeBrace outer := by
  refine h.ready_advance fun hopen hkind below hp => hp.item ho hf ?_
  cases hk : c.peek.kind <;> simp_all [TokenKind.opposite, TokenKind.isOpener]

theorem arrives_singleLineBody (h : c.AtDepth src (.closeBrace :: outer)) (hf : Fresh c) :
    Arrives src.harmless singleLineBody c fun _ c' => c'.AtDepth src outer := by
  refine arrives_read_bind ?_
  split
  · exact (still_reportFirst _ _ _).seq fun _ =>
      (arrives_skipPast rfl (ready_item ho h hf)).seq fun _ _ h => arrives_pure h.1
  rename_i hk
  have h := h.passed (Decidable.of_not_not hk) rfl
  have hskip (p : Problem) (r : SourceRange) : Arrives src.harmless (report p r none >>= fun _ =>
      skipPast .closeBrace >>= fun _ => pure (none : Option Body)) c.advance
        fun _ c' => c'.AtDepth src outer :=
    (still_report _ _ _).seq fun _ => (closes_skipPast rfl h).seq fun _ _ h => arrives_pure h.1
  refine arrives_peek_bind ?_
  split
  · rename_i hk
    refine arrives_skip_bind ?_
    have hvalue : KeepsOperand src (attributeValue c.peek c.advance.peek true) :=
      (keeps_expression ho).track_bind fun _ _ => (still_previousRange.bind fun _ =>
        still_pure _).keeps
    refine (hvalue (.passed h hk rfl rfl)).seq fun a c' h => ?_
    exact (closes_closeSingleLine h).seq fun _ _ h => arrives_pure h.1
  · exact hskip _ _
  · exact hskip _ _
  · exact hskip _ _
  · exact hskip _ _

/-- Inside the braces of a block the parser reads up to the closing one. -/
def ClosesBlock (src : TokenList) (c : Cursor) (p : Parser Body) : Prop :=
  ∀ outer, c.AtDepth src (.closeBrace :: outer) → Fresh c →
    Arrives src.harmless p c fun _ c' => c'.AtDepth src outer

/-- Where a header ends: behind the brace that it is for, or else behind its line. -/
def EndsHeader (src : TokenList) (outer : List TokenKind) (h : BlockHeader) (c : Cursor) : Prop :=
  match h.brace with
  | some _ => c.AtDepth src (.closeBrace :: outer) ∧ Fresh c
  | none => Starts src outer c

theorem arrives_headerStep (name : Token) (x : BlockHeader)
    (h : x.brace = none ∧ c.AtDepth src outer) :
    Arrives src.harmless (headerStep name x) c fun r c' =>
      if r.2 then r.1.brace = none ∧ c'.AtDepth src outer else EndsHeader src outer r.1 c' := by
  obtain ⟨hx, h⟩ := h
  refine arrives_peek_bind ?_
  split
  · rename_i hk
    exact arrives_skip_bind
      (arrives_pure ⟨h.opened hk rfl, Cursor.just_advance (.inr hk)⟩)
  · rename_i hk
    refine arrives_skip_bind ((closes_quotedString ho _ (h.opened hk rfl)).observe_seq
      fun label reported c' h => ?_)
    dsimp only
    cases reported with
    | true => exact (arrives_skipItem h.1).seq fun _ _ h => arrives_pure h
    | false => exact arrives_pure ⟨rfl, h.1⟩
  · have hend (c' : Cursor) (h : Starts src outer c') : EndsHeader src outer x c' := by
      rw [EndsHeader, hx]
      exact h
    exact (still_reportHeader _ _).seq fun _ =>
      (arrives_skipItem h).seq fun _ c' h => arrives_pure (hend c' h)

variable {nested : Parser Body} (hn : ∀ c, ClosesBlock src c nested)
include hn

theorem arrives_blockBody (h : c.AtDepth src (.closeBrace :: outer)) (hf : Fresh c) :
    Arrives src.harmless (blockBody nested) c fun _ c' => c'.AtDepth src outer := by
  refine arrives_peekKind_bind ?_
  split
  · exact (hn c outer h hf).seq fun _ _ h => arrives_pure h
  · exact (hn c outer h hf).seq fun _ _ h => arrives_pure h
  · exact (hn c outer h hf).seq fun _ _ h => arrives_pure h
  · exact arrives_singleLineBody ho h hf

theorem arrives_block (name : Token) (h : c.AtDepth src outer) :
    Arrives src.harmless (block nested name) c fun b c' =>
      b.typeRange = name.range ∧ Starts src outer c' := by
  have hheader :
      Arrives src.harmless (iterate (headerStep name) ⟨[], [], none⟩) c (EndsHeader src outer) :=
    .iterate (I := fun x c => x.brace = none ∧ c.AtDepth src outer) (advances_headerStep name)
      (fun x _ h => arrives_headerStep ho name x h) h.ends ⟨rfl, h⟩
  refine hheader.seq fun x c' h => ?_
  rw [EndsHeader] at h
  split
  · rename_i hb
    rw [hb] at h
    exact arrives_pure ⟨rfl, h⟩
  · rename_i hb
    rw [hb] at h
    refine (arrives_blockBody ho hn h.1 h.2).seq fun body c' h => still_previousRange.seq fun _ => ?_
    exact (arrives_endOfLine _ _ h).seq fun _ _ h => arrives_pure ⟨rfl, h⟩

/-- The names of all items have the property. -/
def Items.Named (N : SourceRange → Prop) (items : Items) : Prop :=
  (∀ a ∈ items.attributes, N a.nameRange) ∧ ∀ b ∈ items.blocks, N b.typeRange

variable {N : SourceRange → Prop} {items : Items}

omit ho hn in
theorem arrives_define {a : Attribute} (h : Starts src outer c) (hi : items.Named N)
    (ha : N a.nameRange) : Arrives src.harmless (items.define a) c fun items' c' =>
      items'.Named N ∧ Starts src outer c' := by
  unfold Items.define
  split
  · refine arrives_pure ⟨⟨fun b hb => ?_, hi.2⟩, h⟩
    rcases List.mem_append.mp hb with hb | hb
    · exact hi.1 b hb
    · exact List.mem_singleton.mp hb ▸ ha
  · exact (still_report _ _ _).seq fun _ => arrives_pure ⟨hi, h⟩

theorem arrives_item (name : Token) (h : c.AtDepth src outer) (hi : items.Named N)
    (hname : N name.range) : Arrives src.harmless (item nested name items) c fun items' c' =>
      items'.Named N ∧ Starts src outer c' := by
  have hblock : Arrives src.harmless (block nested name >>= fun b =>
      pure { items with blocks := items.blocks ++ [b] }) c
        fun items' c' => items'.Named N ∧ Starts src outer c' := by
    refine (arrives_block ho hn name h).seq fun b c' h => arrives_pure ⟨⟨hi.1, fun x hx => ?_⟩, h.2⟩
    rcases List.mem_append.mp hx with hx | hx
    · exact hi.2 x hx
    · rw [List.mem_singleton.mp hx, h.1]
      exact hname
  refine arrives_peek_bind ?_
  split
  · rename_i hk
    refine arrives_skip_bind
      ((arrives_attributeValue ho _ _ (.passed h hk rfl rfl)).seq fun a c' h => ?_)
    exact arrives_define h.2 hi (h.1 ▸ hname)
  · exact hblock
  · exact hblock
  · exact (arrives_skipItem h).seq fun _ _ h =>
      (still_report _ _ _).seq fun _ => arrives_pure ⟨hi, h⟩

/-- A step of a body up to `closer`, in a place where names have the property, `E` holds behind the
closer, and whatever else is no item is passed over up to there. -/
theorem arrives_bodyStep {closer : TokenKind} {E : Cursor → Prop} (start : SourceRange)
    (h : c.AtDepth src outer) (hi : items.Named N)
    (hname : c.peek.kind = .identifier → N c.peek.range)
    (hend : c.peek.kind = closer → E c.advance)
    (hskip : Arrives src.harmless (skipPast closer) c.advance fun _ c' => E c') :
    Arrives src.harmless (bodyStep nested closer start items) c fun r c' => r.1.Named N ∧
      if r.2 then Starts src outer c' else E c' := by
  refine arrives_read_bind ?_
  split
  · rename_i hk
    exact arrives_pure ⟨hi, hend hk⟩
  split
  · rename_i hk
    exact arrives_pure ⟨hi, starts_advance h (.inl hk)⟩
  · rename_i hk
    exact (arrives_item ho hn _ (h.passed hk rfl) hi (hname hk)).seq fun _ _ h => arrives_pure h
  · exact (still_reportItem _ _).seq fun _ => hskip.seq fun _ _ h => arrives_pure ⟨hi, h⟩

variable (hf : Framed nested)
include hf

theorem closesBlock_bodyWith : ClosesBlock src c (bodyWith nested .closeBrace) := by
  intro outer h hfresh
  refine still_previousRange.seq fun start => ?_
  refine Arrives.seq (P := fun _ c' => c'.AtDepth src outer) ?_ fun _ _ h => arrives_pure h
  refine .iterate (I := fun _ c => c.AtDepth src (.closeBrace :: outer) ∧ Fresh c)
    (advances_bodyStep hf _ _) (fun items c h => ?_) h.ends ⟨h, hfresh⟩
  refine (arrives_bodyStep (N := fun _ => True) (E := fun c => c.AtDepth src outer) ho hn start h.1
    ⟨fun _ _ => trivial, fun _ _ => trivial⟩ (fun _ => trivial) (fun hk => h.1.closer hk rfl)
    ((arrives_skipPast rfl (ready_item ho h.1 h.2)).mono fun _ _ h => h.1)).mono fun r c' h => ?_
  have h := h.2
  split at h
  · rename_i hmore
    rw [if_pos hmore]
    exact ⟨h.1, h.2.mono fun _ => .inl⟩
  · rename_i hmore
    rw [if_neg hmore]
    exact h

/-- The names in a body that is a whole source. -/
theorem named_bodyWith (hname : ∀ c : Cursor, c.AtDepth src [] → c.peek.kind = .identifier →
    N c.peek.range) (h : c.AtDepth src []) :
    Arrives src.harmless (bodyWith nested .eof) c fun body _ =>
      (∀ a ∈ body.attributes, N a.nameRange) ∧ ∀ b ∈ body.blocks, N b.typeRange := by
  refine still_previousRange.seq fun start => ?_
  refine Arrives.seq (P := fun items _ => items.Named N) ?_ fun _ _ h => arrives_pure h
  refine .iterate (I := fun items c => c.AtDepth src [] ∧ items.Named N)
    (advances_bodyStep hf _ _) (fun items c h => ?_) h.ends ⟨h, by simp [Items.Named]⟩
  refine (arrives_bodyStep (E := fun _ => True) ho hn start h.1 h.2 (hname c h.1)
    (fun _ => trivial) fun _ _ => trivial).mono fun r c' h => ?_
  have hmore := h.2
  split at hmore
  · rename_i hr
    rw [if_pos hr]
    exact ⟨hmore.1, h.1⟩
  · rename_i hr
    rw [if_neg hr]
    exact h.1

omit hn hf in
/-- The body of every block is read up to the brace of the block. -/
theorem closesBlock_body (c : Cursor) : ClosesBlock src c (body .closeBrace) := by
  intro outer h hfresh
  refine settles_bodies.induct
    (P := fun c closer p => closer = .closeBrace → ClosesBlock src c p)
    (fun _ => framed_passAll (Body.empty default)) ?_ ?_ ?_ .closeBrace h.ends rfl outer h hfresh
  · intro closer c p p' hp hclose hk outer h hfresh b
    rw [hp b]
    exact hclose hk outer h hfresh b
  · exact fun _ c _ outer h _ =>
      (arrives_passAll _ h).mono fun _ _ h => h.1.mono (List.nil_sublist _)
  · rintro r' hf - hclose closer c rfl
    exact closesBlock_bodyWith ho (fun c => hclose .closeBrace c rfl) (hf _)

end HclSyntax.Parser
