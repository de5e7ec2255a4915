import HclSyntax.Source
import HclSyntax.TokenKind
import HclSyntax.Utf8

namespace HclSyntax

structure Token where
  kind : TokenKind
  bytes : List UInt8
  range : SourceRange
  deriving DecidableEq, Repr, Inhabited

namespace Token

/-- The bytes as characters, what is no UTF-8 replaced. -/
def chars (t : Token) : List Char := Utf8.decode t.bytes

def text (t : Token) : String := String.ofList t.chars

/-- Keywords are identifiers that count only where the grammar asks for them. -/
def isKeyword (t : Token) (keyword : String) : Bool :=
  t.kind == .identifier && t.bytes == Utf8.encode keyword

theorem kind_of_isKeyword {t : Token} {keyword : String} (h : t.isKeyword keyword) :
    t.kind = .identifier := by
  simp only [isKeyword, Bool.and_eq_true, beq_iff_eq] at h
  exact h.1

end Token

structure TokenList where
  body : List Token
  eof : Token
  eof_kind : eof.kind = .eof
  deriving DecidableEq

namespace TokenList

/-- Keeps a list that ends in an end-of-file token and gives any other list one, where its last
token stops. -/
def ofList (tokens : List Token) : TokenList :=
  match tokens.getLast? with
  | none => ⟨[], ⟨.eof, [], .point "" .start⟩, rfl⟩
  | some last =>
    if hk : last.kind = .eof then ⟨tokens.dropLast, last, hk⟩
    else ⟨tokens, ⟨.eof, [], last.range.endPoint⟩, rfl⟩

def toList (l : TokenList) : List Token := l.body ++ [l.eof]

def length (l : TokenList) : Nat := l.body.length + 1

def get? (l : TokenList) (i : Nat) : Option Token := l.toList[i]?

def summary (l : TokenList) : String := "TokenList(" ++ toString l.length ++ " tokens)"

@[simp] theorem length_toList (l : TokenList) : l.toList.length = l.length := by
  simp [toList, length]

theorem toList_ne_nil (l : TokenList) : l.toList ≠ [] := by simp [toList]

end TokenList

end HclSyntax
