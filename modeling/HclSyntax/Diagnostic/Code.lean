namespace HclSyntax

inductive ErrorCode where
  | definitionRequired
  | attributeRedefined
  | missingNewline
  | invalidBlock
  | unclosedBlock
  | quotedName
  | invalidExpression
  | missingCloser
  | missingSeparator
  | missingAlternative
  | invalidComprehension
  | nestedSplat
  | invalidAttributeName
  | extraCharacters
  | invalidTraversal
  | unterminatedTemplate
  | invalidDirective
  | invalidEscape
  | invalidNumber
  | invalidString
  | unterminatedString
  deriving DecidableEq, Repr

namespace ErrorCode

def all : List ErrorCode := [
  definitionRequired, attributeRedefined, missingNewline, invalidBlock, unclosedBlock, quotedName,
  invalidExpression, missingCloser, missingSeparator, missingAlternative, invalidComprehension,
  nestedSplat, invalidAttributeName, extraCharacters, invalidTraversal,
  unterminatedTemplate, invalidDirective,
  invalidEscape, invalidNumber, invalidString, unterminatedString]

def text : ErrorCode → String
  | definitionRequired => "E1001"
  | attributeRedefined => "E1002"
  | missingNewline => "E1003"
  | invalidBlock => "E1004"
  | unclosedBlock => "E1005"
  | quotedName => "E1006"
  | invalidExpression => "E1010"
  | missingCloser => "E1011"
  | missingSeparator => "E1012"
  | missingAlternative => "E1013"
  | invalidComprehension => "E1014"
  | nestedSplat => "E1015"
  | invalidAttributeName => "E1016"
  | extraCharacters => "E1017"
  | invalidTraversal => "E1018"
  | unterminatedTemplate => "E1020"
  | invalidDirective => "E1021"
  | invalidEscape => "E2001"
  | invalidNumber => "E2002"
  | invalidString => "E2003"
  | unterminatedString => "E2004"

/-- Reads a code in letters of either case. No letter outside ASCII has `E` as its capital. -/
def ofText? (text : String) : Option ErrorCode := all.find? (·.text == text.toUpper)

/-- Whether the mistake lies in a literal and not in the structure of the source. -/
def isLiteral : ErrorCode → Bool
  | invalidEscape | invalidNumber | invalidString | unterminatedString => true
  | _ => false

def isSyntax (c : ErrorCode) : Bool := !c.isLiteral

def index (c : ErrorCode) : Nat := all.idxOf c

end ErrorCode

end HclSyntax
