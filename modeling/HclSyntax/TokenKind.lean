namespace HclSyntax

/-- Kinds in their fixed order; `index` is the place in it. -/
inductive TokenKind where
  | openBrace | closeBrace | openBracket | closeBracket | openParen | closeParen
  | openQuote | closeQuote | openHeredoc | closeHeredoc
  | star | slash | plus | minus | percent
  | assign | equal | notEqual | less | lessEqual | greater | greaterEqual
  | and | or | not
  | dot | comma | ellipsis | fatArrow | question | colon
  | interpolation
  | directive
  | sequenceEnd
  /-- A piece of a quoted string, in which backslash escapes count. -/
  | quotedChunk
  /-- A piece of a heredoc or a bare template, in which backslashes are text. -/
  | plainChunk
  | number | identifier
  | comment | newline | eof
  | invalid | badUtf8
  /-- The kind that no token of a file has. -/
  | none
  deriving DecidableEq, Repr, Inhabited

namespace TokenKind

def index (k : TokenKind) : Nat := k.ctorIdx

def displayName : TokenKind → String
  | openBrace => "`\x7b`"
  | closeBrace => "`\x7d`"
  | openBracket => "`[`"
  | closeBracket => "`]`"
  | openParen => "`(`"
  | closeParen => "`)`"
  | openQuote => "opening quote"
  | closeQuote => "closing quote"
  | openHeredoc => "heredoc introducer"
  | closeHeredoc => "heredoc terminator"
  | star => "`*`"
  | slash => "`/`"
  | plus => "`+`"
  | minus => "`-`"
  | percent => "`%`"
  | assign => "`=`"
  | equal => "`==`"
  | notEqual => "`!=`"
  | less => "`<`"
  | lessEqual => "`<=`"
  | greater => "`>`"
  | greaterEqual => "`>=`"
  | and => "`&&`"
  | or => "`||`"
  | not => "`!`"
  | dot => "`.`"
  | comma => "`,`"
  | ellipsis => "`...`"
  | fatArrow => "`=>`"
  | question => "`?`"
  | colon => "`:`"
  | interpolation => "`$\x7b`"
  | directive => "`!\x7b`"
  | sequenceEnd => "end of template sequence"
  | quotedChunk => "string literal"
  | plainChunk => "string literal"
  | number => "number literal"
  | identifier => "identifier"
  | comment => "comment"
  | newline => "newline"
  | eof => "end of file"
  | invalid => "invalid character"
  | badUtf8 => "invalid UTF-8"
  | none => "nothing"

/-- The bracket that pairs with this one. The end of a template sequence closes both of its
openers and answers with `interpolation`; what is no bracket answers `none`. -/
def opposite : TokenKind → TokenKind
  | openBrace => closeBrace
  | openBracket => closeBracket
  | openParen => closeParen
  | openQuote => closeQuote
  | openHeredoc => closeHeredoc
  | closeBrace => openBrace
  | closeBracket => openBracket
  | closeParen => openParen
  | closeQuote => openQuote
  | closeHeredoc => openHeredoc
  | interpolation => sequenceEnd
  | directive => sequenceEnd
  | sequenceEnd => interpolation
  | _ => none

def isOpener : TokenKind → Bool
  | openBrace | openBracket | openParen | openQuote | openHeredoc | interpolation | directive => true
  | _ => false

def isCloser : TokenKind → Bool
  | closeBrace | closeBracket | closeParen | closeQuote | closeHeredoc | sequenceEnd => true
  | _ => false

def opens (o c : TokenKind) : Bool := o.isOpener && o.opposite == c

theorem opposite_isCloser {k : TokenKind} (h : k.isOpener) : k.opposite.isCloser := by
  cases k <;> simp_all [isOpener, opposite, isCloser]

theorem opposite_isOpener {k : TokenKind} (h : k.isCloser) : k.opposite.isOpener := by
  cases k <;> simp_all [isOpener, opposite, isCloser]

end TokenKind

end HclSyntax
