import HclSyntax.Text.Invisible

namespace HclSyntax.Quoted

def codePoint (c : Char) : List Char :=
  '\\' :: 'u' :: '\x7b' :: Nat.toDigits 16 c.toNat ++ ['\x7d']

/-- Whether a reader would take the character for a part of the one before it. -/
def attaches (c : Char) : Bool :=
  CharClass.graphemeExtend.contains c && !CharClass.spacingLetter.contains c

/-- Printable ASCII stands for itself without a look into the tables. -/
def isVisible (c : Char) : Bool :=
  (' ' ≤ c && c ≤ '~') ||
    !(CharClass.unprintable.contains c || CharClass.blankLetter.contains c || attaches c)

def escape (c : Char) : List Char :=
  match c with
  | '\x00' => ['\\', '0']
  | '\t' => ['\\', 't']
  | '\r' => ['\\', 'r']
  | '\n' => ['\\', 'n']
  | '\\' => ['\\', '\\']
  | '"' => ['\\', '"']
  | _ => if isVisible c then [c] else codePoint c

def quote (text : String) : String :=
  String.ofList ('"' :: text.toList.flatMap escape ++ ['"'])

end HclSyntax.Quoted
