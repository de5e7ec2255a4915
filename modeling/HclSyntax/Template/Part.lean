import HclSyntax.Syntax.Expr
import HclSyntax.Text.CharClass

namespace HclSyntax

inductive Directive where
  | ifStart (condition : Expr)
  | elseMark
  | endif
  | forStart (keyVar : Option String) (valueVar : String) (collection : Expr)
  | endfor

inductive TemplatePart where
  | text (value : String) (range : SourceRange)
  | interpolation (expr : Expr) (range : SourceRange)
  | directive (d : Directive) (range : SourceRange)

namespace TemplatePart

def trimStart (text : String) : String :=
  String.ofList (text.toList.dropWhile CharClass.whiteSpace.contains)

def trimEnd (text : String) : String :=
  String.ofList (text.toList.reverse.dropWhile CharClass.whiteSpace.contains).reverse

/-- The parts with the white space at the end of the last one stripped, if that is text. -/
def trimLast (parts : List TemplatePart) : List TemplatePart :=
  match parts.getLast? with
  | some (.text value range) => parts.dropLast ++ [.text (trimEnd value) range]
  | _ => parts

end TemplatePart

end HclSyntax
