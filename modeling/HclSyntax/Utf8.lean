namespace HclSyntax.Utf8

def replacement : Char := '\uFFFD'

structure Lead where
  /-- The value bits that the lead byte itself carries. -/
  bits : Nat
  /-- How many bytes follow. -/
  count : Nat
  /-- The least and greatest value of the byte that follows first. -/
  least : UInt8
  greatest : UInt8
  deriving DecidableEq, Repr

/-- The bounds on the second byte keep out overlong forms, surrogates and values past the last
code point. -/
def lead? (b : UInt8) : Option Lead :=
  let tail (mask : UInt8) (count : Nat) (least greatest : UInt8) : Option Lead :=
    some ⟨(b &&& mask).toNat, count, least, greatest⟩
  if b < 0x80 then tail 0x7F 0 0x80 0xBF
  else if b < 0xC2 then none
  else if b < 0xE0 then tail 0x1F 1 0x80 0xBF
  else if b = 0xE0 then tail 0x0F 2 0xA0 0xBF
  else if b = 0xED then tail 0x0F 2 0x80 0x9F
  else if b < 0xF0 then tail 0x0F 2 0x80 0xBF
  else if b = 0xF0 then tail 0x07 3 0x90 0xBF
  else if b < 0xF4 then tail 0x07 3 0x80 0xBF
  else if b = 0xF4 then tail 0x07 3 0x80 0x8F
  else none

/-- The decoder between two bytes: at a boundary, or inside a character that needs `count + 1` more
bytes, the next one within bounds. -/
inductive Step where
  | boundary
  | inside (bits count : Nat) (least greatest : UInt8)
  deriving DecidableEq, Repr

def start (b : UInt8) : List Char × Step :=
  match lead? b with
  | none => ([replacement], .boundary)
  | some ⟨bits, 0, _, _⟩ => ([Char.ofNat bits], .boundary)
  | some ⟨bits, count + 1, least, greatest⟩ => ([], .inside bits count least greatest)

/-- The characters that the byte `b` completes. A byte that cannot continue a character ends it as
one replacement and is read again as a start. -/
def Step.next (s : Step) (b : UInt8) : List Char × Step :=
  match s with
  | .boundary => start b
  | .inside bits count least greatest =>
    if least ≤ b && b ≤ greatest then
      let bits := bits * 64 + (b &&& 0x3F).toNat
      match count with
      | 0 => ([Char.ofNat bits], .boundary)
      | count + 1 => ([], .inside bits count 0x80 0xBF)
    else
      let (cs, s) := start b
      (replacement :: cs, s)

def Step.finish : Step → List Char
  | .boundary => []
  | .inside .. => [replacement]

def decodeFrom (s : Step) : List UInt8 → List Char
  | [] => s.finish
  | b :: bytes => let (cs, s) := s.next b; cs ++ decodeFrom s bytes

/-- The text of the bytes. Each maximal invalid stretch becomes one replacement character. -/
def decode (bytes : List UInt8) : List Char := decodeFrom .boundary bytes

def encode (text : String) : List UInt8 := text.toUTF8.toList

def byteLength : List Char → Nat
  | [] => 0
  | c :: text => c.utf8Size + byteLength text

end HclSyntax.Utf8
