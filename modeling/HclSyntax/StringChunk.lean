import HclSyntax.Diagnostic.Problem
import HclSyntax.Text.Segmentation
import HclSyntax.Token

namespace HclSyntax

inductive Marker where
  | dollar | bang
  deriving DecidableEq, Repr

def Marker.char : Marker → Char
  | .dollar => '$'
  | .bang => '!'

def Marker.ofCluster? : List Char → Option Marker
  | ['$'] => some .dollar
  | ['!'] => some .bang
  | _ => none

namespace StringChunk

def advance (p : Pos) (cluster : List Char) : Pos :=
  let byte := p.byte + UInt32.ofNat (Utf8.byteLength cluster)
  if cluster = ['\n'] ∨ cluster = ['\r', '\n'] then ⟨p.line + 1, 1, byte⟩
  else ⟨p.line, p.column + 1, byte⟩

def escaped? : List Char → Option Char
  | ['n'] => some '\n'
  | ['r'] => some '\r'
  | ['t'] => some '\t'
  | ['"'] => some '"'
  | ['\\'] => some '\\'
  | _ => none

/-- What has been read and waits for the next cluster. -/
inductive Pending where
  | nothing
  | backslash (start : Pos)
  | marker (m : Marker)
  | doubled (m : Marker)
  deriving DecidableEq, Repr

def Pending.finish : Pending → List Char
  | nothing => []
  | backslash _ => ['\\']
  | marker m => [m.char]
  | doubled m => [m.char, m.char]

/-- What one cluster does: the text that is now settled, what waits, and the place of an invalid
escape that ended here. -/
structure Reading where
  text : List Char
  pending : Pending
  invalidFrom : Option Pos
  deriving DecidableEq, Repr

def readFresh (quoted : Bool) (p : Pos) (cluster : List Char) : Reading :=
  if quoted && cluster == ['\\'] then ⟨[], .backslash p, none⟩
  else match Marker.ofCluster? cluster with
    | some m => ⟨[], .marker m, none⟩
    | none => ⟨cluster, .nothing, none⟩

/-- A cluster that starts at `p`. What waits and is not completed by it comes out as it is. -/
def Pending.read (w : Pending) (quoted : Bool) (p : Pos) (cluster : List Char) : Reading :=
  let after (text : List Char) : Reading :=
    let r := readFresh quoted p cluster
    { r with text := text ++ r.text }
  match w with
  | nothing => after []
  | backslash start =>
    match escaped? cluster with
    | some c => ⟨[c], .nothing, none⟩
    | none => ⟨'\\' :: cluster, .nothing, some start⟩
  | marker m =>
    if cluster = [m.char] then ⟨[], .doubled m, none⟩ else after [m.char]
  | doubled m =>
    if cluster = ['\x7b'] then ⟨[m.char, '\x7b'], .nothing, none⟩ else after [m.char, m.char]

def decodeFrom (filename : String) (quoted : Bool) (w : Pending) (p : Pos) :
    List (List Char) → List Char × List Diagnostic
  | [] => (w.finish, [])
  | cluster :: clusters =>
    let r := w.read quoted p cluster
    let next := advance p cluster
    let (text, problems) := decodeFrom filename quoted r.pending next clusters
    let problem := r.invalidFrom.map fun start =>
      (Problem.invalidEscape (String.ofList cluster)).toDiagnostic ⟨filename, start, next⟩ none
    (r.text ++ text, problem.toList ++ problems)

/-- The text of a chunk and its invalid escapes, which stay in the text as they are. In quoted
chunks backslashes escape; in all chunks a doubled marker before a brace stands for one. -/
def decodeWith (s : Segmentation) (t : Token) : String × List Diagnostic :=
  let (text, problems) := decodeFrom t.range.filename (t.kind == .quotedChunk) .nothing
    t.range.start (s.split t.chars)
  (String.ofList text, problems)

def decode (t : Token) : String × List Diagnostic := decodeWith Cluster.segmentation t

end StringChunk

end HclSyntax
