import HclSyntax.Token

namespace HclSyntax

namespace Token

def endsWithNewline (t : Token) : Bool :=
  t.kind == .comment && ([0x23].isPrefixOf t.bytes || [0x2F, 0x2F].isPrefixOf t.bytes) &&
    t.bytes.getLast? == some 0x0A

/-- A line comment holds the newline that ends it, which the parser needs as a token of its own.
What is left of the comment is as wide as it has characters. -/
def splitNewline (t : Token) : List Token :=
  let bytes := t.bytes.dropLast
  let r := t.range
  let newline : Pos :=
    ⟨r.start.line, r.start.column + UInt32.ofNat (Utf8.decode bytes).length, r.stop.byte - 1⟩
  [⟨.comment, bytes, ⟨r.filename, r.start, newline⟩⟩,
   ⟨.newline, [0x0A], ⟨r.filename, newline, r.stop⟩⟩]

end Token

namespace TokenList

def hasLineComments (l : TokenList) : Bool := l.toList.any Token.endsWithNewline

def splitLineComments (l : TokenList) : TokenList :=
  { l with body := l.body.flatMap fun t => if t.endsWithNewline then t.splitNewline else [t] }

theorem splitLineComments_of_no_comment {l : TokenList}
    (h : ∀ t ∈ l.body, t.kind ≠ .comment) : l.splitLineComments.body = l.body := by
  have hsplit : ∀ t ∈ l.body, (if t.endsWithNewline then t.splitNewline else [t]) = [t] := by
    intro t ht
    rw [if_neg]
    simp [Token.endsWithNewline, h t ht]
  change l.body.flatMap _ = l.body
  rw [List.flatMap_def, List.map_congr_left hsplit]
  exact List.flatMap_singleton' l.body

end TokenList

end HclSyntax
