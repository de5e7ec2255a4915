import HclSyntax.Proofs.Grammar.Tree

namespace HclSyntax

/-- What a template is written as: chunks of text, and sequences that may strip the text before and
after them. -/
inductive RawPiece where
  | text (value : String)
  | sequence (before after : Bool) (s : Sequence)

namespace RawPiece

/-- Whether white space is stripped at the end of a text that is followed by these pieces. -/
def stripsBefore : List RawPiece → Bool
  | sequence before _ _ :: _ => before
  | _ => false

/-- The pieces with all texts stripped; `strip` tells whether the first one is at its start. -/
def strippedFrom (strip : Bool) : List RawPiece → List Piece
  | [] => []
  | text value :: raws =>
    let value := if strip then TemplatePart.trimStart value else value
    let value := if stripsBefore raws then TemplatePart.trimEnd value else value
    .text value :: strippedFrom false raws
  | sequence _ after s :: raws => .sequence s :: strippedFrom after raws

/-- The pieces of a template; one without any is an empty text. -/
def pieces (raws : List RawPiece) : List Piece :=
  if raws.isEmpty then [.text ""] else strippedFrom false raws

end RawPiece

namespace Tree

/-- The text of a branch or of the body of a loop. -/
def branch (parts : List Tree) : Tree :=
  if parts.isEmpty then .literal (.string "") else .template parts

end Tree

/-- Pieces in which every directive has its end, and the expressions that they are. -/
inductive Nested : List Piece → List Tree → Prop
  | nil : Nested [] []
  | text {value : String} {ps : List Piece} {es : List Tree} (h : Nested ps es) :
    Nested (.text value :: ps) (.literal (.string value) :: es)
  | interpolation {e : Tree} {ps : List Piece} {es : List Tree} (h : Nested ps es) :
    Nested (.sequence (.interpolation e) :: ps) (e :: es)
  | conditional {c : Tree} {ps qs : List Piece} {as es : List Tree} (ha : Nested ps as)
    (h : Nested qs es) :
    Nested (.sequence (.ifStart c) :: ps ++ .sequence .endif :: qs)
      (.conditional c (.branch as) (.branch []) :: es)
  | alternative {c : Tree} {ps ps' qs : List Piece} {as bs es : List Tree} (ha : Nested ps as)
    (hb : Nested ps' bs) (h : Nested qs es) :
    Nested (.sequence (.ifStart c) :: ps ++ .sequence .elseMark :: ps' ++ .sequence .endif :: qs)
      (.conditional c (.branch as) (.branch bs) :: es)
  | loop {k : Option String} {v : String} {c : Tree} {ps qs : List Piece} {as es : List Tree}
    (ha : Nested ps as) (h : Nested qs es) :
    Nested (.sequence (.forStart k v c) :: ps ++ .sequence .endfor :: qs)
      (.templateJoin (.comprehension k v c none (.branch as) none false) :: es)

/-- The expression of a template. One that is nothing but an interpolation keeps its value. -/
def Tree.ofPieces (ps : List Piece) (es : List Tree) : Tree :=
  match ps, es with
  | [.sequence (.interpolation _)], [inner] => .templateWrap inner
  | _, _ => .template es

end HclSyntax
