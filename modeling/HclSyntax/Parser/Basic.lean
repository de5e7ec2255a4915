import HclSyntax.Cursor
import HclSyntax.LineComment
import HclSyntax.Diagnostic.Problem
import HclSyntax.Syntax.Expr

namespace HclSyntax

structure ParseState where
  cursor : Cursor
  /-- Set by the first recovery and never cleared. While it is set, mistakes that may only follow
  from an earlier one go unreported. -/
  recovering : Bool

structure Parsed (α : Type) where
  value : α
  diagnostics : List Diagnostic
  state : ParseState

/-- A parser never fails. Whatever it meets, it gives an answer, and keeps the diagnostics of its
parts in the order in which they ran. -/
def Parser (α : Type) : Type := ParseState → Parsed α

namespace Parser

variable {α σ : Type}

instance : Monad Parser where
  pure a s := ⟨a, [], s⟩
  bind p f s :=
    let a := p s
    let b := f a.value a.state
    ⟨b.value, a.diagnostics ++ b.diagnostics, b.state⟩

def peek : Parser Token := fun s => ⟨s.cursor.peek, [], s⟩

def peekKind : Parser TokenKind := return (← peek).kind

def read : Parser Token := fun s =>
  ⟨s.cursor.peek, [], { s with cursor := s.cursor.advance }⟩

def skip : Parser Unit := fun s => ⟨(), [], { s with cursor := s.cursor.advance }⟩

def previousRange : Parser SourceRange := fun s => ⟨s.cursor.previousRange, [], s⟩

def atKeyword (keyword : String) : Parser Bool := return (← peek).isKeyword keyword

def withNewlines (newlines : Bool) (p : Parser α) : Parser α := fun s =>
  let r := p { s with cursor := s.cursor.enter newlines }
  { r with state := { r.state with cursor := r.state.cursor.leave } }

def recovering : Parser Bool := fun s => ⟨s.recovering, [], s⟩

def recover : Parser Unit := fun s => ⟨(), [], { s with recovering := true }⟩

def tell (ds : List Diagnostic) : Parser Unit := fun s => ⟨(), ds, s⟩

def report (p : Problem) (subject : SourceRange) (context : Option SourceRange) : Parser Unit :=
  tell [p.toDiagnostic subject context]

/-- Reports a problem that may follow from an earlier one, unless there was one. -/
def reportFirst (p : Problem) (subject : SourceRange) (context : Option SourceRange) :
    Parser Unit := do
  unless ← recovering do report p subject context

def observe (p : Parser α) : Parser (α × Bool) := fun s =>
  let r := p s
  ⟨(r.value, !r.diagnostics.isEmpty), r.diagnostics, r.state⟩

/-- Runs `p` and tells whether it lost its way: it reported something, and a recovery was needed
by then. -/
def track (p : Parser α) : Parser (α × Bool) := do
  let (a, reported) ← observe p
  return (a, reported && (← recovering))

/-- Where an expression should be and none is. No token is passed. -/
def invalid : Parser Expr := do
  let t ← peek
  reportFirst .invalidExpression t.range none
  recover
  return .placeholder t.range

def iterateFor (step : σ → Parser (σ × Bool)) : Nat → σ → Parser σ
  | 0, a => do
    let _ ← invalid
    return a
  | n + 1, a => do
    let (a, more) ← step a
    if more then iterateFor step n a else return a

/-- Repeats a step while it asks for more. A step that does so passes a token, so there are never
more steps than tokens, and one at the end. -/
def iterate (step : σ → Parser (σ × Bool)) (a : σ) : Parser σ := fun s =>
  iterateFor step (s.cursor.remaining + 1) a s

def run (p : Parser α) (tokens : TokenList) : α × List Diagnostic :=
  let r := p ⟨.ofTokens tokens.splitLineComments, false⟩
  (r.value, r.diagnostics)

end Parser

end HclSyntax
