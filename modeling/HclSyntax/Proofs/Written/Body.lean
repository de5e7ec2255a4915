import HclSyntax.Proofs.Written.Line

namespace HclSyntax

open HclSyntax.Parser

/-- The line that closes a block. -/
structure BlockEnd where
  brace : Token.Of .closeBrace
  newline : Token.Of .newline

/-- The lines of a block with those inside of it. -/
def blockLines (h : Header) (inner : List Token) (e : BlockEnd) : List Token :=
  h.print ++ (inner ++ [e.brace.1, e.newline.1])

/-- A body as it is written, its items in their order. -/
inductive WrittenBody where
  | nil
  | define (d : Definition) (rest : WrittenBody)
  | block (header : Header) (inner : WrittenBody) (close : BlockEnd) (rest : WrittenBody)

/-- The block with the header, the body and the closing brace. -/
def Header.toBlock (h : Header) (body : Body) (close : Token) : Block where
  type := h.type.1.text
  labels := h.labels.map Label.text
  labelRanges := h.labels.map Label.range
  body := some body
  typeRange := h.type.1.range
  openRange := h.brace.1.range
  closeRange := close.range

namespace WrittenBody

def print : WrittenBody → List Token
  | nil => []
  | define d rest => d.print ++ rest.print
  | block h inner close rest => blockLines h inner.print close ++ rest.print

/-- All definitions, but for those in blocks. -/
def definitions : WrittenBody → List Definition
  | nil => []
  | define d rest => d :: rest.definitions
  | block _ _ _ rest => rest.definitions

def attributes (b : WrittenBody) : List Attribute := (firsts b.definitions).map Definition.toAttribute

def blocks : WrittenBody → List Block
  | nil => []
  | define _ rest => rest.blocks
  | block h inner close rest =>
    h.toBlock ⟨inner.attributes, inner.blocks, .between h.brace.1.range close.brace.1.range,
      close.brace.1.range.endPoint⟩ close.brace.1 :: rest.blocks

/-- The body between what stands in front of it and what ends it. -/
def toBody (b : WrittenBody) (start stop : SourceRange) : Body :=
  ⟨b.attributes, b.blocks, .between start stop, stop.endPoint⟩

/-- What is reported, after definitions in the same body. -/
def problems : WrittenBody → List Definition → List Diagnostic
  | nil, _ => []
  | define d rest, earlier => d.problems earlier ++ rest.problems (earlier ++ [d])
  | block _ inner _ rest, earlier => inner.problems [] ++ rest.problems earlier

theorem uncommented (b : WrittenBody) : ∀ t ∈ b.print, t.kind ≠ .comment := by
  induction b with
  | nil => simp [print]
  | define d rest ih =>
    intro t ht
    rcases List.mem_append.mp ht with ht | ht
    · exact d.uncommented t ht
    · exact ih t ht
  | block h inner close rest ihi ihr =>
    intro t ht
    simp only [print, blockLines, List.mem_append, List.mem_cons, List.not_mem_nil, or_false] at ht
    rcases ht with (ht | ht | rfl | rfl) | ht
    · exact h.uncommented t ht
    · exact ihi t ht
    · simp [close.brace.2]
    · simp [close.newline.2]
    · exact ihr t ht

/-- The steps of a body from its first item to the token that ends it, after other items. -/
def IsRead (b : WrittenBody) : Prop :=
  ∀ (closer : TokenKind) (close : Token) (start : SourceRange) (items : Items)
    (earlier : List Definition) (c : Cursor), closer = .eof ∨ closer = .closeBrace →
    close.kind = closer → items.attributes = (firsts earlier).map Definition.toAttribute →
    c.modes = [] → c.Faces true (b.print ++ [close]) →
      (iterate (bodyStep (body .closeBrace) closer start) items).Reports c
        ⟨(firsts (earlier ++ b.definitions)).map Definition.toAttribute, items.blocks ++ b.blocks,
          close.range⟩ (b.problems earlier) (c.past (b.print ++ [close]))

section
variable {closer : TokenKind} {start : SourceRange} {items : Items} {c : Cursor}

theorem advances_items (closer : TokenKind) (start : SourceRange) :
    Advances (bodyStep (body .closeBrace) closer start) :=
  advances_bodyStep (framed.body .closeBrace) closer start

theorem isRead_nil : nil.IsRead := by
  intro closer close start items earlier c hcloser hk hi _ hf
  have hclose : c.Faces true [close] := hf
  obtain ⟨hp, ha, -⟩ := hclose.token (by rw [hk]; rcases hcloser with rfl | rfl <;> decide)
  refine (advances_items closer start).reports_last hf.inMode.ends ?_
  rw [Reports, bodyStep_closer (by rw [hp, hk]), hp, ha]
  simp [definitions, blocks, problems, print, ← hi]

/-- An item is one step. -/
theorem reports_item {name : Token} {ts : List Token} {items' : Items} {ds : List Diagnostic}
    (start : SourceRange) (hcloser : closer = .eof ∨ closer = .closeBrace)
    (hk : name.kind = .identifier) (hf : c.Faces true (name :: ts))
    (h : (item (body .closeBrace) name items).Reports (c.past [name]) items' ds
      (c.past (name :: ts))) :
    (bodyStep (body .closeBrace) closer start items).Reports c (items', true) ds
      (c.past (name :: ts)) := by
  obtain ⟨hp, ha, -⟩ := hf.token (by simp [hk])
  rw [Reports, bodyStep_identifier (by rcases hcloser with rfl | rfl <;> decide) (by rw [hp, hk]),
    hp, ha]
  exact h.map

/-- A definition is added to the items or reported, and the items behind it are read as they would
be without it. -/
theorem IsRead.define {rest : WrittenBody} (ih : rest.IsRead) (d : Definition) :
    (define d rest).IsRead := by
  intro closer close start items earlier c hcloser hk hi hm hf
  rw [print, List.append_assoc] at hf ⊢
  have hname : c.Faces true ([d.name.1] ++ (d.equals.1 :: (d.value.tokens ++ [d.newline.1]))) :=
    hf.left
  obtain ⟨hp, ha, -⟩ := hname.right.token (by simp [d.equals.2])
  have hitem : (item (body .closeBrace) d.name.1 items).Reports (c.past [d.name.1])
      { items with attributes := (firsts (earlier ++ [d])).map Definition.toAttribute }
      (d.problems earlier) (c.past d.print) := by
    unfold item Watch.item
    rw [Watch.idle_on, reports_peek_bind, hp]
    simp only [d.equals.2]
    rw [reports_skip_bind, ha, Cursor.past_past]
    exact (d.reads_attributeValue hm hf.left).bind_reports (d.reports_define hi _)
  have hstep := reports_item start hcloser d.name.2 hf.left hitem
  have hrest := ih closer close start
    { items with attributes := (firsts (earlier ++ [d])).map Definition.toAttribute }
    (earlier ++ [d]) (c.past d.print) hcloser hk rfl hm hf.right
  have hall := (advances_items closer start).reports_more hf.inMode.ends hstep hrest
  rw [Cursor.past_past] at hall
  simpa [definitions, blocks, problems] using hall

/-- The body of what the items come to. -/
theorem reports_body {ds : List Diagnostic} {c' : Cursor} (he : c.eof.kind = .eof)
    (hs : c.previousRange = start)
    (h : (iterate (bodyStep (body .closeBrace) closer start) ⟨[], [], start⟩).Reports c items ds c') :
    (body closer).Reports c ⟨items.attributes, items.blocks, .between start items.stop,
      items.stop.endPoint⟩ ds c' := by
  have hwith : (bodyWith (body .closeBrace) closer).Reports c ⟨items.attributes, items.blocks,
      .between start items.stop, items.stop.endPoint⟩ ds c' := by
    unfold bodyWith Watch.bodyWith
    rw [Watch.idle_on, reports_previousRange_bind, hs]
    exact h.map
  rw [Reports, settles_bodies.solves closer ⟨c, false⟩ he]
  exact hwith

theorem reads_emptyLine {nested : Parser Body} (start : SourceRange) (items : Items)
    (hcloser : closer ≠ .newline) (hk : c.peek.kind = .newline) :
    (bodyStep nested closer start items).Reads c (items, true) c.advance := by
  unfold bodyStep Watch.bodyStep
  simp only [Watch.idle_on, reads_read_bind, hk, hcloser.symm, if_false]
  exact reads_pure.mpr ⟨rfl, rfl⟩

/-- Between the braces there is first the newline of the header. -/
theorem IsRead.reports_inner {inner : WrittenBody} (ih : inner.IsRead) (h : Header)
    (brace : Token.Of .closeBrace) (hm : c.modes = [])
    (hf : c.Faces true (h.print ++ (inner.print ++ [brace.1]))) :
    (blockBody (body .closeBrace)).Reports (c.past h.opening)
      (some (inner.toBody h.brace.1.range brace.1.range)) (inner.problems [])
      (c.past (h.print ++ (inner.print ++ [brace.1]))) := by
  rw [Header.print, List.append_assoc] at hf ⊢
  have hends : (c.past h.opening).eof.kind = .eof := hf.inMode.ends
  have hlast : (c.past h.opening).previousRange = h.brace.1.range := by
    rw [Header.opening, Cursor.previousRange_past, List.getLastD_concat]
  obtain ⟨hp, ha, -⟩ := hf.right.left.token (by simp [h.newline.2])
  have hline : (bodyStep (body .closeBrace) .closeBrace h.brace.1.range
      ⟨[], [], h.brace.1.range⟩).Reads (c.past h.opening) (⟨[], [], h.brace.1.range⟩, true)
      ((c.past h.opening).past [h.newline.1]) := by
    rw [← ha]
    exact reads_emptyLine _ _ (by decide) (by rw [hp, h.newline.2])
  have hitems := ih .closeBrace brace.1 h.brace.1.range ⟨[], [], h.brace.1.range⟩ []
    ((c.past h.opening).past [h.newline.1]) (.inr rfl) brace.2 rfl hm hf.right.right
  have hall := (advances_items .closeBrace h.brace.1.range).reports_more hends hline.reports hitems
  rw [Cursor.past_past, Cursor.past_past] at hall
  unfold blockBody Watch.blockBody
  rw [reports_peekKind_bind, hp, h.newline.2]
  exact (reports_body hends hlast hall).map

/-- A block is read to the end of the line of its closing brace. -/
theorem IsRead.reports_block {inner : WrittenBody} (ih : inner.IsRead) (h : Header) (e : BlockEnd)
    (hm : c.modes = []) (hf : c.Faces true (blockLines h inner.print e)) :
    (Parser.block (body .closeBrace) h.type.1).Reports (c.past [h.type.1])
      (h.toBlock (inner.toBody h.brace.1.range e.brace.1.range) e.brace.1)
      (inner.problems []) (c.past (blockLines h inner.print e)) := by
  have hlines : blockLines h inner.print e =
      (h.print ++ (inner.print ++ [e.brace.1])) ++ [e.newline.1] := by simp [blockLines]
  rw [hlines] at hf ⊢
  have hopen : c.Faces true (([h.type.1] ++ (h.labels.flatMap Label.print ++ [h.brace.1])) ++
      [h.newline.1]) := hf.left.left
  have hlabels := Header.reads_labels h.type.1 h.brace h.labels ⟨[], [], none⟩ hopen.left.right
  rw [Cursor.past_past] at hlabels
  have hinner := ih.reports_inner h e.brace hm hf.left
  obtain ⟨hp, ha, -⟩ := hf.right.token (by simp [e.newline.2])
  have hlast : (c.past (h.print ++ (inner.print ++ [e.brace.1]))).previousRange =
      e.brace.1.range := by
    rw [← List.append_assoc, Header.print, Header.opening, List.cons_append, List.cons_append,
      List.cons_append, Cursor.previousRange_past, List.getLastD_concat]
  unfold Parser.block Parser.Watch.block
  refine hlabels.bind_reports (hinner.bind_reads ?_)
  rw [reads_previousRange_bind, hlast]
  refine (reads_endOfLine _ _ (by rw [hp, e.newline.2])).bind (reads_pure.mpr ⟨rfl, ?_⟩)
  rw [ha, Cursor.past_past]

/-- A block is added to the items, and those behind it are read as they would be without it. -/
theorem IsRead.block {inner rest : WrittenBody} (ihi : inner.IsRead) (ihr : rest.IsRead)
    (h : Header) (e : BlockEnd) : (WrittenBody.block h inner e rest).IsRead := by
  intro closer close start items earlier c hcloser hk hi hm hf
  rw [print, List.append_assoc] at hf ⊢
  have hopen : c.Faces true (([h.type.1] ++ (h.labels.flatMap Label.print ++ [h.brace.1])) ++
      [h.newline.1]) := hf.left.left
  have hblock := ihi.reports_block h e hm hf.left
  have hitem : (item (body .closeBrace) h.type.1 items).Reports (c.past [h.type.1])
      { items with blocks := items.blocks ++
        [h.toBlock (inner.toBody h.brace.1.range e.brace.1.range) e.brace.1] }
      (inner.problems []) (c.past (blockLines h inner.print e)) := by
    unfold item Watch.item
    rw [Watch.idle_on, reports_peek_bind]
    rcases Header.kind_after_type hopen.left.right with hnext | hnext
    · rw [hnext]
      exact hblock.map
    · rw [hnext]
      exact hblock.map
  have hstep := reports_item start hcloser h.type.2 hf.left hitem
  have hrest := ihr closer close start { items with blocks := items.blocks ++
    [h.toBlock (inner.toBody h.brace.1.range e.brace.1.range) e.brace.1] } earlier
    (c.past (blockLines h inner.print e)) hcloser hk hi hm hf.right
  have hall := (advances_items closer start).reports_more hf.inMode.ends hstep hrest
  rw [Cursor.past_past] at hall
  simpa [definitions, blocks, problems, toBody] using hall

end

theorem isRead (b : WrittenBody) : b.IsRead := by
  induction b with
  | nil => exact isRead_nil
  | define d rest ih => exact ih.define d
  | block h inner e rest ihi ihr => exact ihi.block ihr h e

/-- The body as a whole file. -/
def file (b : WrittenBody) (stop : Token.Of .eof) : TokenList := ⟨b.print, stop.1, stop.2⟩

theorem start_file (b : WrittenBody) (stop : Token.Of .eof) :
    (b.file stop).start = ⟨⟨[], b.print ++ [stop.1], stop.1, []⟩, false⟩ := by
  have hsplit := TokenList.splitLineComments_of_no_comment (l := b.file stop) b.uncommented
  unfold TokenList.start Cursor.ofTokens TokenList.toList
  rw [hsplit]
  rfl

theorem faces_start (b : WrittenBody) (stop : Token.Of .eof) :
    (b.file stop).start.cursor.Faces true (b.print ++ [stop.1]) := by
  rw [start_file]
  exact ⟨⟨rfl, stop.2⟩, List.prefix_refl _⟩

theorem startRange_file (b : WrittenBody) (stop : Token.Of .eof) :
    (b.file stop).startRange = (b.print.headD stop.1).range := by
  have hf := b.faces_start stop
  have hpeek : (b.file stop).start.cursor.peek = b.print.headD stop.1 := by
    have huncommented := b.uncommented
    cases hb : b.print with
    | nil =>
      rw [hb] at hf
      exact (hf.token (by simp [stop.2])).1
    | cons t ts =>
      rw [hb] at hf
      exact (hf.token (huncommented t (by simp [hb]))).1
  rw [← hpeek]
  rfl

theorem parseBody_file (b : WrittenBody) (stop : Token.Of .eof) : parseBody (b.file stop) .eof =
    (b.toBody (b.print.headD stop.1).range stop.1.range, b.problems []) := by
  have hitems := b.isRead .eof stop.1 (b.file stop).startRange ⟨[], [], (b.file stop).startRange⟩ []
    _ (.inl rfl) stop.2 rfl rfl (b.faces_start stop)
  have hbody := reports_body (b.file stop).eof_kind rfl hitems
  rw [← startRange_file]
  change ((body .eof (b.file stop).start).value, (body .eof (b.file stop).start).diagnostics) = _
  rw [show body .eof (b.file stop).start = _ from hbody]
  rfl

variable (b : WrittenBody) (start stop : SourceRange)

theorem attribute?_toBody (name : String) : (b.toBody start stop).attribute? name =
    (b.definitions.find? (·.text == name)).map Definition.toAttribute := by
  rw [Body.attribute?, toBody, attributes, List.find?_map, ← find?_firsts]
  rfl

theorem nodup_attributes : ((b.toBody start stop).attributes.map (·.name)).Nodup := by
  have h := nodup_firsts b.definitions
  rwa [toBody, attributes, List.map_map]

end WrittenBody

/-- A printed body is read back, to any depth, as long as brackets shelter all newlines in its
values. A name has its first definition for an attribute, with the tree that the value has alone;
the blocks are those that were printed, in their order; and what is reported are the further
definitions of a name in the same body, each with the place of the first. -/
theorem printed_body_is_read (b : WrittenBody) (stop : Token.Of .eof) :
    parseBody (b.file stop) .eof =
      (b.toBody (b.print.headD stop.1).range stop.1.range, b.problems []) ∧
    ∀ (inner : WrittenBody) (start stop : SourceRange),
      (∀ name, (inner.toBody start stop).attribute? name =
        (inner.definitions.find? (·.text == name)).map Definition.toAttribute) ∧
      ((inner.toBody start stop).attributes.map (·.name)).Nodup :=
  ⟨b.parseBody_file stop, fun inner start stop =>
    ⟨inner.attribute?_toBody start stop, inner.nodup_attributes start stop⟩⟩

/-- A token of the kind at no place in particular. -/
def bareToken (kind : TokenKind) (bytes : List UInt8) : Token.Of kind :=
  ⟨⟨kind, bytes, default⟩, rfl⟩

/-- The line `a = [b]` with a newline in front of the name. -/
def tupleLine : Definition where
  name := bareToken .identifier [0x61]
  equals := bareToken .assign [0x3D]
  value :=
    { tokens := [(bareToken .openBracket [0x5B]).1, (bareToken .newline [0x0A]).1,
        (bareToken .identifier [0x62]).1, (bareToken .closeBracket [0x5D]).1]
      inside := by decide
      stop := bareToken .eof []
      clean := by decide +kernel
      uncommented := by decide
      shelters := by decide }
  newline := bareToken .newline [0x0A]

/-- The line `a = b`. -/
def nameLine : Definition where
  name := bareToken .identifier [0x61]
  equals := bareToken .assign [0x3D]
  value :=
    { tokens := [(bareToken .identifier [0x62]).1]
      inside := by decide
      stop := bareToken .eof []
      clean := by decide +kernel
      uncommented := by decide
      shelters := by decide }
  newline := bareToken .newline [0x0A]

/-- The line `s "" {`. -/
def labelledHeader : Header where
  type := bareToken .identifier [0x73]
  labels := [⟨bareToken .openQuote [0x22], [], bareToken .closeQuote [0x22]⟩]
  brace := bareToken .openBrace [0x7B]
  newline := bareToken .newline [0x0A]

/-- The lines define `a` as a tuple, then in a block and then once more. -/
def threeDefinitions : WrittenBody :=
  .define tupleLine (.block labelledHeader (.define nameLine .nil)
    ⟨bareToken .closeBrace [0x7D], bareToken .newline [0x0A]⟩ (.define nameLine .nil))

theorem threeDefinitions_are_read :
    (parseBody (threeDefinitions.file (bareToken .eof [])) .eof).2 =
      [nameLine.redefines tupleLine] ∧
    (parseBody (threeDefinitions.file (bareToken .eof [])) .eof).1.attributes =
      [tupleLine.toAttribute] := by
  rw [(printed_body_is_read threeDefinitions (bareToken .eof [])).1]
  exact ⟨by decide +kernel, rfl⟩

/-- The value `a[*]` with a newline in front of the star. -/
def splitSplat : List Token :=
  [(bareToken .identifier [0x61]).1, (bareToken .openBracket [0x5B]).1,
    (bareToken .newline [0x0A]).1, (bareToken .star [0x2A]).1, (bareToken .closeBracket [0x5D]).1]

/-- Tokens as a whole source. -/
def bareSource (tokens : List Token) : TokenList :=
  ⟨tokens, (bareToken .eof []).1, (bareToken .eof []).2⟩

/-- The brackets of a full splat shelter no newline: with one in them a value is accepted alone, and
in the line `x = a[*]` it is reported. -/
theorem splitSplat_is_reported :
    (parseExpression (bareSource splitSplat)).2 = [] ∧ sheltered [] splitSplat = false ∧
      (parseBody (bareSource ([(bareToken .identifier [0x78]).1, (bareToken .assign [0x3D]).1] ++
        splitSplat ++ [(bareToken .newline [0x0A]).1])) .eof).2 ≠ [] :=
  ⟨by decide +kernel, by decide, by decide +kernel⟩

end HclSyntax
