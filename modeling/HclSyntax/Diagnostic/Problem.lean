import HclSyntax.Diagnostic.Basic
import HclSyntax.Text.Quoted

namespace HclSyntax

inductive ComprehensionProblem where
  | missingVariable
  | missingValueVariable
  | missingIn
  | missingColon
  | extraCharacters
  | missingKey
  | unexpectedKey
  | unexpectedGrouping
  deriving DecidableEq, Repr

inductive LoopProblem where
  | missingVariable
  | missingValueVariable
  | missingIn
  deriving DecidableEq, Repr

inductive Problem where
  -- bodies
  | attributeRedefined (name : String) (first : SourceRange)
  | definitionRequired
  /-- A name that nothing follows to make it a definition. -/
  | loneName
  | commaAfterAttribute
  | missingNewlineAfterAttribute
  | missingNewlineAfterBlock
  | equalsInBlockHeader
  | newlineInBlockHeader
  | invalidBlockHeader
  | singleAttributeRequired (name : String)
  | commaInSingleLineBlock
  | newlineInSingleLineBlock
  | unclosedSingleLineBlock
  | quotedName
  | unclosedBlock
  -- literals
  | sequenceInString (marker : String)
  | unterminatedString
  | invalidStringItem
  | invalidEscape (cluster : String)
  | invalidNumber
  -- expressions
  | invalidExpression
  | unbalancedParens
  | missingAlternative
  | missingTupleSeparator
  | missingObjectSeparator
  | missingItemValue
  | missingKeySeparator
  /-- A second name where the value of an item should begin. -/
  | missingKeySeparatorBeforeName
  | expansionNotLast
  | unterminatedCall
  | missingArgumentSeparator
  | comprehension (problem : ComprehensionProblem)
  | unclosedIndex
  | unclosedSplat
  | nestedSplat
  | missingAttributeName
  | extraAfterExpression
  -- traversals
  | missingVariableName
  | splatInTraversal
  | missingStepName
  | splatIndexInTraversal
  | missingIndexKey
  | unclosedStep
  | invalidStep
  -- templates
  | extraInInterpolation
  | unterminatedTemplate
  | missingDirectiveKeyword
  | unknownDirective (name : String) (suggestion : Option String)
  | extraInDirective (name : String)
  | loop (problem : LoopProblem)
  | strayDirective (name : String)
  | missingEndif (start : SourceRange)
  | missingEndfor (start : SourceRange)
  | secondElse (start : SourceRange)
  | endforInIf (start : SourceRange)
  | elseInFor
  | endifInFor (start : SourceRange)
  deriving DecidableEq, Repr

namespace Problem

def code : Problem → ErrorCode
  | attributeRedefined .. => .attributeRedefined
  | definitionRequired | loneName | singleAttributeRequired _ => .definitionRequired
  | commaAfterAttribute | missingNewlineAfterAttribute | missingNewlineAfterBlock => .missingNewline
  | equalsInBlockHeader | newlineInBlockHeader | invalidBlockHeader
  | commaInSingleLineBlock | newlineInSingleLineBlock | unclosedSingleLineBlock => .invalidBlock
  | quotedName => .quotedName
  | unclosedBlock => .unclosedBlock
  | sequenceInString _ | invalidStringItem => .invalidString
  | unterminatedString => .unterminatedString
  | invalidEscape _ => .invalidEscape
  | invalidNumber => .invalidNumber
  | invalidExpression => .invalidExpression
  | unbalancedParens | expansionNotLast | unterminatedCall | unclosedIndex | unclosedSplat
  | unclosedStep | extraInInterpolation => .missingCloser
  | missingAlternative => .missingAlternative
  | missingTupleSeparator | missingObjectSeparator | missingItemValue | missingKeySeparator
  | missingKeySeparatorBeforeName | missingArgumentSeparator => .missingSeparator
  | comprehension _ => .invalidComprehension
  | nestedSplat => .nestedSplat
  | missingAttributeName => .invalidAttributeName
  | extraAfterExpression => .extraCharacters
  | missingVariableName | splatInTraversal | missingStepName | splatIndexInTraversal
  | missingIndexKey | invalidStep => .invalidTraversal
  | unterminatedTemplate => .unterminatedTemplate
  | missingDirectiveKeyword | unknownDirective .. | extraInDirective _ | loop _ | strayDirective _
  | missingEndif _ | missingEndfor _ | secondElse _ | endforInIf _ | elseInFor
  | endifInFor _ => .invalidDirective

def summary : Problem → String
  | attributeRedefined .. => "Attribute redefined"
  | definitionRequired | loneName => "Attribute or block definition required"
  | commaAfterAttribute => "Unexpected comma after attribute"
  | missingNewlineAfterAttribute => "Missing newline after attribute definition"
  | missingNewlineAfterBlock => "Missing newline after block definition"
  | equalsInBlockHeader | newlineInBlockHeader | invalidBlockHeader => "Invalid block definition"
  | singleAttributeRequired _ => "Attribute definition required"
  | commaInSingleLineBlock | newlineInSingleLineBlock
  | unclosedSingleLineBlock => "Invalid single-attribute block definition"
  | quotedName | missingAttributeName => "Invalid attribute name"
  | unclosedBlock => "Unclosed configuration block"
  | sequenceInString _ | invalidStringItem => "Invalid string literal"
  | unterminatedString => "Unterminated string literal"
  | invalidEscape _ => "Invalid escape sequence"
  | invalidNumber => "Invalid number literal"
  | invalidExpression => "Invalid expression"
  | unbalancedParens => "Unbalanced parentheses"
  | missingAlternative => "Missing false expression in conditional"
  | missingTupleSeparator | missingObjectSeparator => "Missing item separator"
  | missingItemValue => "Missing item value"
  | missingKeySeparator | missingKeySeparatorBeforeName => "Missing key/value separator"
  | expansionNotLast => "Missing closing parenthesis"
  | unterminatedCall => "Unterminated function call"
  | missingArgumentSeparator => "Missing argument separator"
  | comprehension _ => "Invalid 'for' expression"
  | unclosedIndex => "Missing close bracket on index"
  | unclosedSplat => "Missing close bracket on splat index"
  | nestedSplat => "Nested splat expression not allowed"
  | extraAfterExpression => "Extra characters after expression"
  | missingVariableName => "Variable name required"
  | splatInTraversal | missingStepName | splatIndexInTraversal => "Attribute name required"
  | missingIndexKey => "Index value required"
  | unclosedStep => "Unclosed index brackets"
  | invalidStep => "Invalid character"
  | extraInInterpolation => "Extra characters after interpolation expression"
  | unterminatedTemplate => "Unterminated template string"
  | missingDirectiveKeyword => "Invalid template directive"
  | unknownDirective .. => "Invalid template control keyword"
  | extraInDirective name => "Extra characters in " ++ name ++ " marker"
  | loop _ => "Invalid 'for' directive"
  | strayDirective name => "Unexpected " ++ name ++ " directive"
  | missingEndif _ | missingEndfor _ => "Unexpected end of template"
  | secondElse _ | elseInFor => "Unexpected else directive"
  | endforInIf _ => "Unexpected endfor directive"
  | endifInFor _ => "Unexpected endif directive"

end Problem

def ComprehensionProblem.detail : ComprehensionProblem → String
  | missingVariable => "For expression requires variable name after 'for'."
  | missingValueVariable => "For expression requires value variable name after comma."
  | missingIn => "For expression requires the 'in' keyword after its name declarations."
  | missingColon => "For expression requires a colon after the collection expression."
  | extraCharacters => "Extra characters after the end of the 'for' expression."
  | missingKey => "Key expression is required when building an object."
  | unexpectedKey => "Key expression is not valid when building a tuple."
  | unexpectedGrouping => "Grouping ellipsis (...) cannot be used when building a tuple."

def LoopProblem.detail : LoopProblem → String
  | missingVariable => "For directive requires variable name after 'for'."
  | missingValueVariable => "For directive requires value variable name after comma."
  | missingIn => "For directive requires 'in' keyword after names."

namespace Problem

def detail : Problem → String
  | attributeRedefined name first =>
    "The attribute " ++ Quoted.quote name ++ " was already defined at " ++ first.toText ++
      ". Each attribute may be defined only once."
  | definitionRequired => "An attribute or block definition is required here."
  | loneName =>
    "An attribute or block definition is required here. To define an attribute, use the equals " ++
    "sign \"=\" to introduce the attribute value."
  | commaAfterAttribute =>
    "Attribute definitions must be separated by newlines, not commas. An attribute definition " ++
    "must end with a newline."
  | missingNewlineAfterAttribute => "An attribute definition must end with a newline."
  | missingNewlineAfterBlock => "A block definition must end with a newline."
  | equalsInBlockHeader =>
    "The equals sign \"=\" indicates an attribute definition, and must not be used when " ++
    "defining a block."
  | newlineInBlockHeader =>
    "A block definition must have block content delimited by \"\x7b\" and \"\x7d\", starting " ++
    "on the same line as the block header."
  | invalidBlockHeader =>
    "Either a quoted string block label or an opening brace (\"\x7b\") is expected here."
  | singleAttributeRequired name =>
    "A single-line block definition can contain only a single attribute. If you meant to " ++
    "define attribute " ++ Quoted.quote name ++ ", use an equals sign to assign it a value. To " ++
    "define a nested block, place it on a line of its own within its parent block."
  | commaInSingleLineBlock =>
    "Single-line block syntax can include only one attribute definition. To define multiple " ++
    "attributes, use the multi-line block syntax with one attribute definition per line."
  | newlineInSingleLineBlock =>
    "An attribute definition on the same line as its containing block creates a single-line " ++
    "block definition, which must also be closed on the same line. Place the block's closing " ++
    "brace immediately after the attribute definition."
  | unclosedSingleLineBlock =>
    "A single-line block definition must end with a closing brace immediately after its single " ++
    "attribute definition."
  | quotedName => "Attribute names must not be quoted."
  | unclosedBlock =>
    "There is no closing brace for this block before the end of the file. This may be caused " ++
    "by incorrect brace nesting elsewhere in this file."
  | sequenceInString marker =>
    "Template sequences are not allowed in this string. To include a literal " ++
      Quoted.quote marker ++ ", double it (as \"" ++ marker ++ marker ++ "\") to escape it."
  | unterminatedString => "Unable to find the closing quote mark before the end of the file."
  | invalidStringItem => "This item is not valid in a string literal."
  | invalidEscape cluster =>
    "The characters \"\\" ++ cluster ++ "\" do not form a recognized escape sequence." ++
      match cluster with
      | "$" => " To escape a \"$\x7b\" template sequence, use \"$$\x7b\"."
      | "!" => " To escape a \"!\x7b\" template sequence, use \"!!\x7b\"."
      | _ => ""
  | invalidNumber => "Failed to recognize the value of this number literal."
  | invalidExpression =>
    "Expected the start of an expression, but found an invalid expression token."
  | unbalancedParens => "Expected a closing parenthesis to terminate the expression."
  | missingAlternative =>
    "The conditional operator (...?...:...) requires a false expression, delimited by a colon."
  | missingTupleSeparator => "Expected a comma to mark the beginning of the next item."
  | missingObjectSeparator =>
    "Expected a newline or comma to mark the beginning of the next item."
  | missingItemValue => "Expected an item value, introduced by an equals sign (\"=\")."
  | missingKeySeparator =>
    "Expected an equals sign (\"=\") to mark the beginning of the item value."
  | missingKeySeparatorBeforeName =>
    "Expected an equals sign (\"=\") to mark the beginning of the item value. If you intended " ++
    "to give an item name containing periods or spaces, write the name in quotes to create a " ++
    "string literal."
  | expansionNotLast =>
    "An expanded function argument (with ...) must be immediately followed by closing " ++
    "parentheses."
  | unterminatedCall =>
    "There is no closing parenthesis for this function call before the end of the file. This " ++
    "may be caused by incorrect parenthesis nesting elsewhere in this file."
  | missingArgumentSeparator =>
    "A comma is required to separate each function argument from the next."
  | comprehension problem => problem.detail
  | unclosedIndex => "The index operator must end with a closing bracket (\"]\")."
  | unclosedSplat =>
    "The star for a full splat operator must be immediately followed by a closing bracket " ++
    "(\"]\")."
  | nestedSplat =>
    "A splat expression (*) cannot be used inside another attribute-only splat expression."
  | missingAttributeName => "An attribute name is required after a dot."
  | extraAfterExpression =>
    "An expression was successfully parsed, but extra characters were found after it."
  | missingVariableName => "Must begin with a variable name."
  | splatInTraversal => "Splat expressions (.*) may not be used here."
  | missingStepName => "Dot must be followed by attribute name."
  | splatIndexInTraversal => "Splat expressions ([*]) may not be used here."
  | missingIndexKey =>
    "Index brackets must contain either a literal number or a literal string."
  | unclosedStep => "Index key must be followed by a closing bracket."
  | invalidStep => "Expected an attribute access or an index operator."
  | extraInInterpolation =>
    "Expected a closing brace to end the interpolation expression, but found extra characters."
  | unterminatedTemplate => "No closing marker was found for the string."
  | missingDirectiveKeyword =>
    "A template directive keyword (\"if\", \"for\", etc) is expected at the beginning of a " ++
    "!\x7b sequence."
  | unknownDirective name suggestion =>
    Quoted.quote name ++ " is not a valid template control keyword." ++
      match suggestion with
      | some s => " Did you mean " ++ Quoted.quote s ++ "?"
      | none => ""
  | extraInDirective _ =>
    "Expected a closing brace to end the sequence, but found extra characters."
  | loop problem => problem.detail
  | strayDirective _ => "The control directives within this template are unbalanced."
  | missingEndif start =>
    "The if directive at " ++ start.toText ++ " is missing its corresponding endif directive."
  | missingEndfor start =>
    "The for directive at " ++ start.toText ++ " is missing its corresponding endfor directive."
  | secondElse start =>
    "Already in the else clause for the if started at " ++ start.toText ++ "."
  | endforInIf start =>
    "Expecting an endif directive for the if started at " ++ start.toText ++ "."
  | elseInFor => "An else clause is not expected for a for directive."
  | endifInFor start =>
    "Expecting an endfor directive corresponding to the for directive at " ++ start.toText ++ "."

def toDiagnostic (p : Problem) (subject : SourceRange) (context : Option SourceRange) :
    Diagnostic :=
  ⟨p.code, .error, p.summary, p.detail, subject, context⟩

end Problem

end HclSyntax
