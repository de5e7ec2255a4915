import HclSyntax.Diagnostic.Code
import HclSyntax.Source

namespace HclSyntax

inductive Severity where
  | error | warning
  deriving DecidableEq, Repr

def Severity.text : Severity → String
  | .error => "error"
  | .warning => "warning"

structure Diagnostic where
  code : ErrorCode
  severity : Severity
  summary : String
  detail : String
  /-- The narrowest range that the mistake is about. -/
  subject : SourceRange
  /-- The construct around the subject. -/
  context : Option SourceRange
  deriving DecidableEq, Repr

namespace Diagnostic

def isError (d : Diagnostic) : Bool := d.severity == .error

def toText (d : Diagnostic) : String :=
  d.subject.toText ++ ": " ++ d.severity.text ++ " [" ++ d.code.text ++ "]: " ++ d.summary ++
    if d.detail.isEmpty then "" else "; " ++ d.detail

def count (severity : Severity) (ds : List Diagnostic) : Nat := ds.countP (·.severity == severity)

def hasErrors (ds : List Diagnostic) : Bool := ds.any isError

end Diagnostic

end HclSyntax
