import HclSyntax.Proofs.Soundness

namespace HclSyntax

/-- A token of the kind. -/
abbrev Token.Of (kind : TokenKind) := { t : Token // t.kind = kind }

/-- The tokens with every newline at the end of a comment as a token. -/
def splitComments (ts : List Token) : List Token :=
  ts.flatMap fun t => if t.endsWithNewline then t.splitNewline else [t]

@[simp] theorem splitComments_nil : splitComments [] = [] := rfl

@[simp] theorem splitComments_append (ts ts' : List Token) :
    splitComments (ts ++ ts') = splitComments ts ++ splitComments ts' := List.flatMap_append

theorem splitComments_cons {t : Token} (h : t.kind ≠ .comment) (ts : List Token) :
    splitComments (t :: ts) = t :: splitComments ts := by
  have ht : t.endsWithNewline = false := by simp [Token.endsWithNewline, h]
  simp [splitComments, ht]

/-- Tokens that are accepted as an expression, in front of any end of the file. -/
structure CleanValue where
  tokens : List Token
  inside : ∀ t ∈ tokens, t.kind ≠ .eof
  stop : Token.Of .eof
  clean : (parseExpression ⟨tokens, stop, stop.2⟩).2 = []

namespace CleanValue

variable (v : CleanValue)

def list : TokenList := ⟨v.tokens, v.stop, v.stop.2⟩

def expr : Expr := (parseExpression v.list).1

/-- The tokens of a value are derived by the grammar, but for some at the end that are not seen. -/
theorem derives : ∃ ts hs, splitComments v.tokens = ts ++ hs ∧ (∀ t ∈ hs, t.hidden false) ∧
    Derives (.expression false v.expr.tree) ts := by
  have hc := v.list.inMode_start
  have hi : ∀ t ∈ v.list.body, t.kind ≠ .eof := v.inside
  obtain ⟨-, c', ts, hp, hderives, hk⟩ := (Parser.sound_wholeExpression hc).run v.clean
  exact TokenList.is_of_passes hi (hc.enter false) rfl hp hk hderives

end CleanValue

end HclSyntax
