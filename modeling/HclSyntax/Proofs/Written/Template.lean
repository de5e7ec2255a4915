import HclSyntax.Proofs.Complete.Expression
import HclSyntax.Proofs.Termination
import HclSyntax.Proofs.Written.Trimmed
import HclSyntax.Proofs.Written.Value

namespace HclSyntax

namespace Parser

/-- The places with less than `n` tokens left. -/
def Short (n : Nat) (c : Cursor) : Prop := c.eof.kind = .eof ∧ c.remaining < n

theorem onward_short (n : Nat) : Onward (Short n) where
  reaches h hr := ⟨hr.eof ▸ h.1, Nat.lt_of_le_of_lt hr.remaining_le h.2⟩
  enter h _ := h

/-- Where less than `n` tokens are left, `n` levels of the grammar are all of it. -/
theorem same_expression (n : Nat) : SameOn (Short n) (grammar n .expression) expression := by
  intro s hs
  rw [SameAt, expression_eq, grammar_eq]
  exact settles_production.depth _ (framed.grammar 0) n .expression s hs.1 hs.2

end Parser

/-- Parts that the grammar derives and whose directives are well nested are accepted as a template,
with their nesting for a tree. -/
theorem derived_template_is_accepted (tokens : TokenList) {raws : List RawPiece} {es : List Tree}
    (h : tokens.Is true (Derives (.parts true raws))) (hn : Nested (RawPiece.pieces raws) es) :
    (parseTemplate tokens).2 = [] ∧
      (parseTemplate tokens).1.tree = .ofPieces (RawPiece.pieces raws) es := by
  obtain ⟨ts, hs, hbody, hh, hd⟩ := h
  have hrest : tokens.start.cursor.rest = ts ++ (hs ++ [tokens.eof]) := by
    rw [← List.append_assoc, ← hbody]
    rfl
  have hf : tokens.start.cursor.Faces true (ts ++ (hs ++ [tokens.eof])) :=
    ⟨tokens.inMode_start, [], by rw [List.append_nil, hrest]⟩
  have hend : Mark true .eof (hs ++ [tokens.eof]) :=
    ⟨tokens.eof, tokens.eof_kind, hs, rfl, hh, by simp [Token.hidden, tokens.eof_kind]⟩
  have hlen : ts.length < tokens.start.cursor.remaining + 1 := by
    rw [Cursor.remaining, hrest, List.length_append]
    omega
  have hparts : Parser.ReadsParts (Parser.grammar (tokens.start.cursor.remaining + 1) .expression)
      true raws ts := hd.read _ hlen
  obtain ⟨x, hx, htree⟩ := hparts.template (by simp [Parser.ClosesTemplate]) hend hn hf
    tokens.start.cursor.peek.range
  have hsame := (Parser.onward_short (tokens.start.cursor.remaining + 1)).template
    (Parser.framed.grammar _ _) (Parser.same_expression _) tokens.start.cursor.peek.range .eof
    tokens.start ⟨tokens.eof_kind, Nat.lt_succ_self _⟩
  have hrun : Parser.wholeTemplate.Reads tokens.start.cursor x
      (tokens.start.cursor.past (ts ++ (hs ++ [tokens.eof]))) := hsame.symm.trans hx
  have hparse : parseTemplate tokens = (x, []) := by
    change ((Parser.wholeTemplate tokens.start).value,
      (Parser.wholeTemplate tokens.start).diagnostics) = _
    rw [show Parser.wholeTemplate tokens.start = _ from hrun]
  rw [hparse]
  exact ⟨rfl, htree⟩

/-- A name that says what a directive is. -/
abbrev Word (text : String) := { t : Token // t.kind = .identifier ∧ t.text = text }

/-- The keyword in front of the collection of a loop. -/
abbrev InWord := { t : Token // t.isKeyword "in" }

/-- What stands between the markers of a directive. -/
inductive WrittenDirective where
  | ifStart (word : Word "if") (condition : CleanValue)
  | elseMark (word : Word "else")
  | endif (word : Word "endif")
  | forValue (word : Word "for") (value : Token.Of .identifier) (inWord : InWord)
      (collection : CleanValue)
  | forKeyValue (word : Word "for") (key : Token.Of .identifier) (comma : Token.Of .comma)
      (value : Token.Of .identifier) (inWord : InWord) (collection : CleanValue)
  | endfor (word : Word "endfor")

namespace WrittenDirective

def print : WrittenDirective → List Token
  | ifStart word condition => word.1 :: condition.tokens
  | elseMark word | endif word | endfor word => [word.1]
  | forValue word value inWord collection => word.1 :: value.1 :: inWord.1 :: collection.tokens
  | forKeyValue word key comma value inWord collection =>
    word.1 :: key.1 :: comma.1 :: value.1 :: inWord.1 :: collection.tokens

def meaning : WrittenDirective → Sequence
  | ifStart _ condition => .ifStart condition.expr.tree
  | elseMark _ => .elseMark
  | endif _ => .endif
  | forValue _ value _ collection => .forStart none value.1.text collection.expr.tree
  | forKeyValue _ key _ value _ collection =>
    .forStart (some key.1.text) value.1.text collection.expr.tree
  | endfor _ => .endfor

end WrittenDirective

/-- One part of a template as it is written: a chunk of text, or a sequence between its markers,
each of which may strip the text beside it. -/
inductive Segment where
  | chunk (t : Token) (kind : t.kind = .quotedChunk ∨ t.kind = .plainChunk)
      (clean : (StringChunk.decode t).2 = [])
  | interpolation (opening : Token.Of .interpolation) (value : CleanValue)
      (closing : Token.Of .sequenceEnd)
  | directive (opening : Token.Of .directive) (d : WrittenDirective)
      (closing : Token.Of .sequenceEnd)

namespace Segment

def print : Segment → List Token
  | chunk t _ _ => [t]
  | interpolation opening value closing => opening.1 :: value.tokens ++ [closing.1]
  | directive opening d closing => opening.1 :: d.print ++ [closing.1]

def raw : Segment → RawPiece
  | chunk t _ _ => .text (StringChunk.decode t).1
  | interpolation opening value closing =>
    .sequence opening.1.stripsBefore closing.1.stripsAfter (.interpolation value.expr.tree)
  | directive opening d closing =>
    .sequence opening.1.stripsBefore closing.1.stripsAfter d.meaning

/-- The segment is a sequence whose opening marker ends with a tilde. -/
def OpensStripping : Segment → Prop
  | chunk _ _ _ => False
  | interpolation opening _ _ | directive opening _ _ => ∃ front, opening.1.bytes = front ++ [0x7E]

/-- The segment is a sequence whose closing marker begins with a tilde. -/
def ClosesStripping : Segment → Prop
  | chunk _ _ _ => False
  | interpolation _ _ closing | directive _ _ closing => ∃ back, closing.1.bytes = 0x7E :: back

end Segment

/-- A token that is neither a comment nor a newline is seen. -/
theorem sees_self {nl : Bool} {t : Token} (hc : t.kind ≠ .comment) (hn : t.kind ≠ .newline) :
    Sees nl t [t] := ⟨[], rfl, by simp, by simp [Token.hidden, hc, hn]⟩

/-- What was not seen at the end stands in front of the next token. -/
theorem Sees.after {nl : Bool} {t : Token} {hs : List Token} (hh : ∀ x ∈ hs, x.hidden nl)
    (h : Sees nl t [t]) : Sees nl t (hs ++ [t]) := by
  obtain ⟨hs', heq, -, ht⟩ := h
  exact ⟨hs, rfl, hh, ht⟩

section
variable {nl : Bool} {text : String}

theorem Word.name (w : Word text) : Name nl text [w.1] :=
  ⟨w.1, w.2.1, w.2.2, sees_self (by simp [w.2.1]) (by simp [w.2.1])⟩

theorem name_of_identifier (t : Token.Of .identifier) : Name nl t.1.text [t.1] :=
  ⟨t.1, t.2, rfl, sees_self (by simp [t.2]) (by simp [t.2])⟩

theorem InWord.kind (w : InWord) : w.1.kind = .identifier := Token.kind_of_isKeyword w.2

theorem InWord.keyword (w : InWord) : Keyword nl "in" [w.1] :=
  ⟨w.1, w.2, sees_self (by simp [w.kind]) (by simp [w.kind])⟩

theorem WrittenDirective.derives (d : WrittenDirective) : ∃ ts hs, splitComments d.print = ts ++ hs ∧
    (∀ t ∈ hs, t.hidden false) ∧ Derives (.directive d.meaning) ts := by
  cases d with
  | ifStart word condition =>
    obtain ⟨ts, hs, hsplit, hh, hd⟩ := condition.derives
    refine ⟨[word.1] ++ ts, hs, ?_, hh, .ifStart word.name hd⟩
    rw [print, splitComments_cons (by simp [word.2.1]), hsplit]
    rfl
  | elseMark word =>
    exact ⟨[word.1], [], splitComments_cons (by simp [word.2.1]) [], by simp, .elseMark word.name⟩
  | endif word =>
    exact ⟨[word.1], [], splitComments_cons (by simp [word.2.1]) [], by simp, .endif word.name⟩
  | endfor word =>
    exact ⟨[word.1], [], splitComments_cons (by simp [word.2.1]) [], by simp, .endfor word.name⟩
  | forValue word value inWord collection =>
    obtain ⟨ts, hs, hsplit, hh, hd⟩ := collection.derives
    have hb : Binders none value.1.text ([value.1] ++ [inWord.1]) :=
      .value (name_of_identifier value) inWord.keyword
    refine ⟨[word.1] ++ ([value.1] ++ [inWord.1]) ++ ts, hs, ?_, hh, .forStart word.name hb hd⟩
    rw [print, splitComments_cons (by simp [word.2.1]), splitComments_cons (by simp [value.2]),
      splitComments_cons (by simp [inWord.kind]), hsplit]
    rfl
  | forKeyValue word key comma value inWord collection =>
    obtain ⟨ts, hs, hsplit, hh, hd⟩ := collection.derives
    have hc : Mark false .comma [comma.1] :=
      ⟨comma.1, comma.2, sees_self (by simp [comma.2]) (by simp [comma.2])⟩
    have hb : Binders (some key.1.text) value.1.text
        ([key.1] ++ [comma.1] ++ [value.1] ++ [inWord.1]) :=
      .keyValue (name_of_identifier key) hc (name_of_identifier value) inWord.keyword
    refine ⟨[word.1] ++ ([key.1] ++ [comma.1] ++ [value.1] ++ [inWord.1]) ++ ts, hs, ?_, hh,
      .forStart word.name hb hd⟩
    rw [print, splitComments_cons (by simp [word.2.1]), splitComments_cons (by simp [key.2]),
      splitComments_cons (by simp [comma.2]), splitComments_cons (by simp [value.2]),
      splitComments_cons (by simp [inWord.kind]), hsplit]
    rfl

end

namespace Segment

/-- One more segment. -/
theorem derives {raws : List RawPiece} {ts : List Token} (h : Derives (.parts true raws) ts)
    (s : Segment) : Derives (.parts true (raws ++ [s.raw])) (ts ++ splitComments s.print) := by
  cases s with
  | chunk t kind clean =>
    have hc : t.kind ≠ .comment := by rcases kind with hk | hk <;> simp [hk]
    have hn : t.kind ≠ .newline := by rcases kind with hk | hk <;> simp [hk]
    rw [print, splitComments_cons hc]
    exact h.chunk kind (sees_self hc hn) (by rw [← clean])
  | interpolation opening value closing =>
    obtain ⟨ts', hs, hsplit, hh, hd⟩ := value.derives
    have hclose : Sees false closing.1 (hs ++ [closing.1]) :=
      (sees_self (by simp [closing.2]) (by simp [closing.2])).after hh
    have hall := h.interpolation opening.2
      (sees_self (by simp [opening.2]) (by simp [opening.2])) hd closing.2 hclose
    rw [print, List.cons_append, splitComments_cons (by simp [opening.2]), splitComments_append,
      hsplit, splitComments_cons (by simp [closing.2])]
    simpa [raw] using hall
  | directive opening d closing =>
    obtain ⟨ts', hs, hsplit, hh, hd⟩ := d.derives
    have hclose : Sees false closing.1 (hs ++ [closing.1]) :=
      (sees_self (by simp [closing.2]) (by simp [closing.2])).after hh
    have hall := h.directive opening.2
      (sees_self (by simp [opening.2]) (by simp [opening.2])) hd closing.2 hclose
    rw [print, List.cons_append, splitComments_cons (by simp [opening.2]), splitComments_append,
      hsplit, splitComments_cons (by simp [closing.2])]
    simpa [raw] using hall

theorem derives_all (segments : List Segment) {raws : List RawPiece} {ts : List Token}
    (h : Derives (.parts true raws) ts) : Derives (.parts true (raws ++ segments.map raw))
      (ts ++ splitComments (segments.flatMap print)) := by
  induction segments generalizing raws ts with
  | nil => simpa using h
  | cons s segments ih => simpa using ih (derives h s)

end Segment

namespace RawPiece

/-- Whether white space is stripped at the end of a text in front of the piece. -/
def stripsPrevious : RawPiece → Bool
  | text _ => false
  | sequence before _ _ => before

/-- Whether white space is stripped at the start of a text behind the piece. -/
def stripsNext : RawPiece → Bool
  | text _ => false
  | sequence _ after _ => after

/-- What a piece is between its neighbours: a text loses white space on the sides where a neighbour
says so, and nowhere else. -/
def between (previous next : Option RawPiece) : RawPiece → Piece
  | text value =>
    let value := if previous.any stripsNext then TemplatePart.trimStart value else value
    .text (if next.any stripsPrevious then TemplatePart.trimEnd value else value)
  | sequence _ _ s => .sequence s

theorem stripsBefore_eq (raws : List RawPiece) :
    stripsBefore raws = raws.head?.any stripsPrevious := by
  cases raws with
  | nil => rfl
  | cons r raws => cases r <;> rfl

/-- The first of some pieces depends on whether the piece before it strips. -/
theorem strippedFrom_cons (previous : Option RawPiece) (r : RawPiece) (raws : List RawPiece) :
    strippedFrom (previous.any stripsNext) (r :: raws) =
      r.between previous raws.head? :: strippedFrom r.stripsNext raws := by
  cases r with
  | text value =>
    rw [strippedFrom, stripsBefore_eq]
    rfl
  | sequence before after s => rfl

theorem strippedFrom_at (previous : Option RawPiece) (before : List RawPiece) (r : RawPiece)
    (after : List RawPiece) :
    (strippedFrom (previous.any stripsNext) (before ++ r :: after))[before.length]? =
      some (r.between (before.getLast?.or previous) after.head?) := by
  induction before generalizing previous with
  | nil => rw [List.nil_append, strippedFrom_cons]; rfl
  | cons b before ih =>
    rw [List.cons_append, strippedFrom_cons]
    have hlast : (b :: before).getLast?.or previous = before.getLast?.or (some b) := by
      rw [List.getLast?_cons, Option.some_or, Option.or_some]
    rw [hlast, List.length_cons, List.getElem?_cons_succ]
    exact ih (some b)

theorem length_strippedFrom (strip : Bool) (raws : List RawPiece) :
    (strippedFrom strip raws).length = raws.length := by
  induction raws generalizing strip with
  | nil => rfl
  | cons r raws ih => cases r <;> simp [strippedFrom, ih]

/-- Every piece is what its neighbours make of it. -/
theorem pieces_at (before : List RawPiece) (r : RawPiece) (after : List RawPiece) :
    (pieces (before ++ r :: after)).length = (before ++ r :: after).length ∧
      (pieces (before ++ r :: after))[before.length]? =
        some (r.between before.getLast? after.head?) := by
  have h := strippedFrom_at none before r after
  have hpieces : pieces (before ++ r :: after) = strippedFrom false (before ++ r :: after) := by
    simp [pieces]
  rw [Option.or_none] at h
  rw [hpieces]
  exact ⟨length_strippedFrom _ _, h⟩

end RawPiece

namespace Segment

theorem stripsPrevious_raw (s : Segment) : s.raw.stripsPrevious ↔ s.OpensStripping := by
  cases s <;> simp [raw, RawPiece.stripsPrevious, OpensStripping, Token.stripsBefore,
    List.getLast?_eq_some_iff]

theorem stripsNext_raw (s : Segment) : s.raw.stripsNext ↔ s.ClosesStripping := by
  cases s <;> simp [raw, RawPiece.stripsNext, ClosesStripping, Token.stripsAfter,
    List.head?_eq_some_iff]

/-- A chunk is trimmed where a marker beside it says so. -/
theorem chunk_is_trimmed (before : List Segment) (t : Token)
    (kind : t.kind = .quotedChunk ∨ t.kind = .plainChunk) (clean : (StringChunk.decode t).2 = [])
    (after : List Segment) (text : String) :
    (RawPiece.pieces ((before ++ chunk t kind clean :: after).map raw))[before.length]? =
        some (.text text) ↔
      Trimmed (∃ s ∈ before.getLast?, s.ClosesStripping) (∃ s ∈ after.head?, s.OpensStripping)
        (StringChunk.decode t).1 text := by
  have hleft : (∃ s ∈ before.getLast?, s.ClosesStripping) ↔
      (before.map raw).getLast?.any RawPiece.stripsNext := by
    simp [Option.any_eq_true, ← stripsNext_raw]
  have hright : (∃ s ∈ after.head?, s.OpensStripping) ↔
      (after.map raw).head?.any RawPiece.stripsPrevious := by
    simp [Option.any_eq_true, ← stripsPrevious_raw]
  have hpiece := (RawPiece.pieces_at (before.map raw) (chunk t kind clean).raw (after.map raw)).2
  rw [List.length_map] at hpiece
  rw [List.map_append, List.map_cons, hpiece, hleft, hright, trimmed_iff, Option.some_inj, raw,
    RawPiece.between, Piece.text.injEq, eq_comm]

end Segment

/-- A template as it is written, whose directives nest to the expressions. -/
structure WrittenTemplate where
  segments : List Segment
  stop : Token.Of .eof
  exprs : List Tree
  nested : Nested (RawPiece.pieces (segments.map Segment.raw)) exprs

namespace WrittenTemplate

variable (t : WrittenTemplate)

def tokens : TokenList := ⟨t.segments.flatMap Segment.print, t.stop, t.stop.2⟩

def pieces : List Piece := RawPiece.pieces (t.segments.map Segment.raw)

theorem accepted :
    (parseTemplate t.tokens).2 = [] ∧
      (parseTemplate t.tokens).1.tree = .ofPieces t.pieces t.exprs := by
  refine derived_template_is_accepted t.tokens ⟨_, [], (List.append_nil _).symm, by simp, ?_⟩ t.nested
  exact Segment.derives_all t.segments .noPart

end WrittenTemplate

/-- Nothing is reported about the directives of a template just when they nest, and the expressions
are that nesting. A template that is written with such directives is read back: every text is
stripped on the sides where the sequence beside it says so, by a tilde at the marker next to the
text, and none at all is an empty text. -/
theorem directives_are_paired :
    (∀ (parts : List TemplatePart) (stop : SourceRange),
      ((Nesting.ofParts parts stop).2 = [] ↔ ∃ es, Nested (parts.map TemplatePart.piece) es) ∧
      ∀ es, Nested (parts.map TemplatePart.piece) es →
        (Nesting.ofParts parts stop).1.map Expr.tree = es) ∧
    (∀ t : WrittenTemplate, (parseTemplate t.tokens).2 = [] ∧
      (parseTemplate t.tokens).1.tree = .ofPieces t.pieces t.exprs) ∧
    (∀ before r after,
      (RawPiece.pieces (before ++ r :: after)).length = (before ++ r :: after).length ∧
      (RawPiece.pieces (before ++ r :: after))[before.length]? =
        some (r.between before.getLast? after.head?)) ∧
    (∀ before t kind clean after text,
      (RawPiece.pieces ((before ++ Segment.chunk t kind clean :: after).map
          Segment.raw))[before.length]? = some (.text text) ↔
        Trimmed (∃ s ∈ before.getLast?, s.ClosesStripping) (∃ s ∈ after.head?, s.OpensStripping)
          (StringChunk.decode t).1 text) ∧
    ∀ stop : Token.Of .eof, (parseTemplate ⟨[], stop, stop.2⟩).2 = [] ∧
      (parseTemplate ⟨[], stop, stop.2⟩).1.tree = .template [.literal (.string "")] := by
  refine ⟨fun parts stop => ⟨⟨fun h => ⟨_, Nesting.nested_ofParts h⟩, ?_⟩, ?_⟩, fun t => t.accepted,
    RawPiece.pieces_at, Segment.chunk_is_trimmed, fun stop => ?_⟩
  · rintro ⟨es, h⟩
    obtain ⟨xs, hparts, -⟩ := Nesting.ofParts_of_nested h stop
    rw [hparts]
  · intro es h
    obtain ⟨xs, hparts, hxs⟩ := Nesting.ofParts_of_nested h stop
    rw [hparts, hxs]
  · exact (WrittenTemplate.mk [] stop [.literal (.string "")] (.text .nil)).accepted

/-- The condition `a`. -/
def plainCondition : CleanValue where
  tokens := [⟨.identifier, [0x61], default⟩]
  inside := by decide
  stop := ⟨⟨.eof, [], default⟩, @rfl _ TokenKind.eof⟩
  clean := by decide +kernel

/-- The marker `!{`, and the same with a tilde. -/
def opensDirective : Token.Of .directive :=
  ⟨⟨.directive, [0x21, 0x7B], default⟩, @rfl _ TokenKind.directive⟩

def opensStripping : Token.Of .directive :=
  ⟨⟨.directive, [0x21, 0x7B, 0x7E], default⟩, @rfl _ TokenKind.directive⟩

/-- The marker `}`, and the same with a tilde. -/
def closesDirective : Token.Of .sequenceEnd :=
  ⟨⟨.sequenceEnd, [0x7D], default⟩, @rfl _ TokenKind.sequenceEnd⟩

def closesStripping : Token.Of .sequenceEnd :=
  ⟨⟨.sequenceEnd, [0x7E, 0x7D], default⟩, @rfl _ TokenKind.sequenceEnd⟩

/-- The directive `!{if a~}` in front of the text and `!{~endif}` behind it. -/
def opensChoice : Segment :=
  .directive opensDirective (.ifStart ⟨⟨.identifier, [0x69, 0x66], default⟩,
    @rfl _ TokenKind.identifier, by decide⟩ plainCondition) closesStripping

def closesChoice : Segment :=
  .directive opensStripping (.endif ⟨⟨.identifier, [0x65, 0x6E, 0x64, 0x69, 0x66], default⟩,
    @rfl _ TokenKind.identifier, by decide⟩) closesDirective

def spacedChunk : Token := ⟨.plainChunk, [0x20, 0x78, 0x20], default⟩

theorem decode_spacedChunk : StringChunk.decode spacedChunk = (" x ", []) := by decide +kernel

/-- A choice without an alternative around ` x `, which is stripped on both sides. -/
def strippedChoice : WrittenTemplate where
  segments := [opensChoice,
    .chunk spacedChunk (.inr (@rfl _ TokenKind.plainChunk)) (by rw [decode_spacedChunk]),
    closesChoice]
  stop := ⟨⟨.eof, [], default⟩, @rfl _ TokenKind.eof⟩
  exprs := [.conditional (.scope [.root "a"]) (.branch [.literal (.string "x")]) (.branch [])]
  nested := .conditional (.text .nil) .nil

/-- The same choice after the text was stripped. -/
def choiceParts : List TemplatePart :=
  [.directive (.ifStart (.scopeTraversal [.root "a" default] default)) default,
    .text "x" default, .directive .endif default]

theorem strippedChoice_is_read : Nested (choiceParts.map TemplatePart.piece) strippedChoice.exprs ∧
    (Nesting.ofParts choiceParts default).2 = [] ∧
    (Nesting.ofParts choiceParts default).1.map Expr.tree = strippedChoice.exprs ∧
    (parseTemplate strippedChoice.tokens).2 = [] ∧
    (parseTemplate strippedChoice.tokens).1.tree = .template strippedChoice.exprs ∧
    Trimmed (∃ s ∈ some opensChoice, s.ClosesStripping) (∃ s ∈ some closesChoice, s.OpensStripping)
      (StringChunk.decode spacedChunk).1 "x" ∧
    strippedChoice.pieces[1]? = some (.text "x") := by
  have hn : Nested (choiceParts.map TemplatePart.piece) strippedChoice.exprs :=
    .conditional (.text .nil) .nil
  have hleft : ∃ s ∈ some opensChoice, s.ClosesStripping := ⟨opensChoice, rfl, [0x7D], rfl⟩
  have hright : ∃ s ∈ some closesChoice, s.OpensStripping := ⟨closesChoice, rfl, [0x21, 0x7B], rfl⟩
  have htrimmed : Trimmed (∃ s ∈ some opensChoice, s.ClosesStripping)
      (∃ s ∈ some closesChoice, s.OpensStripping) (StringChunk.decode spacedChunk).1 "x" := by
    rw [decode_spacedChunk]
    have hspace : ∀ c ∈ [' '], IsWhiteSpace c := by simp [IsWhiteSpace]
    have hnext : ∀ c ∈ some 'x', ¬IsWhiteSpace c := by simp [IsWhiteSpace]
    exact ⟨['x', ' '], ⟨[' '], by decide, hspace, fun _ => hnext, fun h => absurd hleft h⟩,
      [' '], by decide, hspace, fun _ => hnext, fun h => absurd hright h⟩
  obtain ⟨hparts, hread, -, hchunk, -⟩ := directives_are_paired
  obtain ⟨hreported, hnesting⟩ := hparts choiceParts default
  obtain ⟨hclean, htree⟩ := hread strippedChoice
  have hpiece := (hchunk [opensChoice] spacedChunk (.inr rfl) (by rw [decode_spacedChunk])
    [closesChoice] "x").mpr htrimmed
  exact ⟨hn, hreported.mpr ⟨_, hn⟩, hnesting _ hn, hclean, htree, htrimmed, hpiece⟩

end HclSyntax
