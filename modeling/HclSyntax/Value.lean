import HclSyntax.Number.Numeral
import HclSyntax.Text.Quoted

namespace HclSyntax

inductive ValueType where
  | dynamic | bool | number | string
  deriving DecidableEq, Repr

inductive Value where
  | null
  | bool (b : Bool)
  | number (n : Number)
  | string (s : String)
  | unknown (type : ValueType)
  deriving DecidableEq, Repr

namespace Value

def placeholder : Value := .unknown .dynamic

/-- Strings are read as numbers; null and truth values are none. -/
def toNumber : Value → Except NumberError Value
  | .number n => .ok (.number n)
  | .string s => (Number.parse s).map .number
  | .unknown _ => .ok (.unknown .number)
  | .null | .bool _ => .error .invalid

def isKnown : Value → Bool
  | .unknown _ => false
  | _ => true

def string? : Value → Option String
  | .string s => some s
  | _ => none

def toText : Value → String
  | .null => "null"
  | .bool b => if b then "true" else "false"
  | .number n => n.toText
  | .string s => Quoted.quote s
  | .unknown _ => "(unknown)"

instance : Inhabited Value := ⟨placeholder⟩

end Value

end HclSyntax
