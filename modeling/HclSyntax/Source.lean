namespace HclSyntax

/-- A place in a file: line and column count from one, the byte offset from zero. -/
structure Pos where
  line : UInt32
  column : UInt32
  byte : UInt32
  deriving DecidableEq, Repr, Inhabited

def Pos.start : Pos := ⟨1, 1, 0⟩

/-- A stretch of one file. Nothing forces `start` to lie before `stop`. -/
structure SourceRange where
  filename : String
  start : Pos
  stop : Pos
  deriving DecidableEq, Repr, Inhabited

namespace SourceRange

def point (filename : String) (p : Pos) : SourceRange := ⟨filename, p, p⟩

/-- The earlier start and the later stop by byte offset; a tie keeps the place of `a`. -/
def between (a b : SourceRange) : SourceRange where
  filename := a.filename
  start := if a.start.byte ≤ b.start.byte then a.start else b.start
  stop := if b.stop.byte ≤ a.stop.byte then a.stop else b.stop

def endPoint (r : SourceRange) : SourceRange := point r.filename r.stop

/-- Bytes covered; none if the range runs backwards. -/
def length (r : SourceRange) : Nat := r.stop.byte.toNat - r.start.byte.toNat

def isEmpty (r : SourceRange) : Bool := r.start.byte == r.stop.byte

def containsOffset (r : SourceRange) (offset : UInt32) : Bool :=
  r.start.byte ≤ offset && offset < r.stop.byte

/-- Containment by byte offsets; file names are not compared. -/
def contains (r s : SourceRange) : Bool :=
  r.start.byte ≤ s.start.byte && s.stop.byte ≤ r.stop.byte

def toText (r : SourceRange) : String :=
  let file := r.filename ++ ":" ++ toString r.start.line.toNat ++ "," ++
    toString r.start.column.toNat ++ "-"
  if r.start.line = r.stop.line then file ++ toString r.stop.column.toNat
  else file ++ toString r.stop.line.toNat ++ "," ++ toString r.stop.column.toNat

end SourceRange

end HclSyntax
