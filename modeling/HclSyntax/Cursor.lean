import HclSyntax.Token

namespace HclSyntax

/-- A place in a token list. Comments are never seen, and newlines only where they count. -/
structure Cursor where
  /-- The tokens passed, the last one first. -/
  passed : List Token
  rest : List Token
  eof : Token
  /-- Whether newlines count, the innermost construct first. Outside of all they do. -/
  modes : List Bool
  deriving DecidableEq

namespace Cursor

def ofTokens (l : TokenList) : Cursor := ⟨[], l.toList, l.eof, []⟩

def newlinesCount (c : Cursor) : Bool := c.modes.headD true

def enter (c : Cursor) (newlines : Bool) : Cursor := { c with modes := newlines :: c.modes }

def leave (c : Cursor) : Cursor := { c with modes := c.modes.tail }

def hides (c : Cursor) (t : Token) : Bool :=
  t.kind == .comment || (t.kind == .newline && !c.newlinesCount)

def peek (c : Cursor) : Token := (c.rest.dropWhile c.hides).headD c.eof

def advance (c : Cursor) : Cursor :=
  let hidden := c.rest.takeWhile c.hides
  match c.rest.dropWhile c.hides with
  | [] => { c with passed := hidden.reverse ++ c.passed, rest := [] }
  | t :: rest => { c with passed := t :: hidden.reverse ++ c.passed, rest }

def read (c : Cursor) : Token × Cursor := (c.peek, c.advance)

/-- The range of the token passed last; at the very beginning that of the next one. -/
def previousRange (c : Cursor) : SourceRange := (c.passed.headD c.peek).range

def position (c : Cursor) : Nat := c.passed.length

def remaining (c : Cursor) : Nat := c.rest.length

theorem passed_advance (c : Cursor) :
    c.advance.passed.reverse ++ c.advance.rest = c.passed.reverse ++ c.rest := by
  have h : c.rest.takeWhile c.hides ++ c.rest.dropWhile c.hides = c.rest :=
    List.takeWhile_append_dropWhile
  unfold advance
  split <;> simp_all

end Cursor

end HclSyntax
