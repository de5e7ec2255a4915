import Mathlib.Data.List.Forall2
import HclSyntax.Proofs.Text.Utf8
import HclSyntax.StringChunk

namespace HclSyntax

/-- A place whose numbers have no bound. -/
structure Place where
  line : Nat
  column : Nat
  byte : Nat
  deriving DecidableEq, Repr

namespace Place

def ofPos (p : Pos) : Place := ⟨p.line.toNat, p.column.toNat, p.byte.toNat⟩

/-- The place in numbers of 32 bits, which are right as long as it fits. -/
def toPos (p : Place) : Pos := ⟨.ofNat p.line, .ofNat p.column, .ofNat p.byte⟩

def Fits (p : Place) : Prop := p.line < UInt32.size ∧ p.column < UInt32.size ∧ p.byte < UInt32.size

/-- The place behind a cluster, which is as long as its bytes. LF and CRLF end a line, and every
other cluster is one column wide. -/
def after (p : Place) (cluster : List Char) : Place :=
  let byte := p.byte + (Utf8.encode (String.ofList cluster)).length
  if cluster = ['\n'] ∨ cluster = ['\r', '\n'] then ⟨p.line + 1, 1, byte⟩
  else ⟨p.line, p.column + 1, byte⟩

theorem toPos_ofPos (p : Pos) : (ofPos p).toPos = p := by simp [ofPos, toPos]

theorem Fits.ofPos_toPos {p : Place} (h : p.Fits) : ofPos p.toPos = p := by
  obtain ⟨hl, hc, hb⟩ := h
  simp only [ofPos, toPos, UInt32.toNat_ofNat']
  rw [Nat.mod_eq_of_lt hl, Nat.mod_eq_of_lt hc, Nat.mod_eq_of_lt hb]

/-- Places of 32 bits are moved in the same way. -/
theorem toPos_after (p : Place) (cluster : List Char) :
    (p.after cluster).toPos = StringChunk.advance p.toPos cluster := by
  unfold after StringChunk.advance
  rw [Utf8.length_encode]
  dsimp only
  split <;> simp [toPos, UInt32.ofNat_add]

end Place

namespace StringChunk

/-- One or more clusters that are read together. -/
inductive Piece where
  /-- A cluster that stands for itself. -/
  | plain (cluster : List Char)
  /-- A backslash and the letter that it makes `meant` of. -/
  | escape (letter meant : Char)
  /-- A backslash and a cluster that it makes nothing of. -/
  | invalid (cluster : List Char)
  /-- A marker twice, with no brace after it. -/
  | pair (marker : Char)
  /-- A marker twice and a brace. -/
  | braced (marker : Char)
  deriving DecidableEq, Repr

/-- What the piece is written as. -/
def Piece.clusters : Piece → List (List Char)
  | plain cluster => [cluster]
  | escape letter _ => [['\\'], [letter]]
  | invalid cluster => [['\\'], cluster]
  | pair m => [[m], [m]]
  | braced m => [[m], [m], ['\x7b']]

/-- What the piece stands for. -/
def Piece.text : Piece → List Char
  | plain cluster => cluster
  | escape _ meant => [meant]
  | invalid cluster => '\\' :: cluster
  | pair m => [m, m]
  | braced m => [m, '\x7b']

/-- The letters that can be escaped, and what they mean then. -/
def escapes : List (Char × Char) :=
  [('n', '\n'), ('r', '\r'), ('t', '\t'), ('"', '"'), ('\\', '\\')]

/-- A backslash and the cluster after it. -/
def Piece.ofEscape (cluster : List Char) : Piece :=
  match escapes.find? fun e => cluster == [e.1] with
  | some (letter, meant) => .escape letter meant
  | none => .invalid cluster

def markers : List Char := ['$', '!']

/-- The marker that both clusters are. -/
def doubled? (first second : List Char) : Option Char :=
  markers.find? fun m => first == [m] && second == [m]

/-- The pieces of a chunk, from left to right. A backslash at the end stands for itself. -/
def pieces (quoted : Bool) : List (List Char) → List Piece
  | [] => []
  | [cluster] => [.plain cluster]
  | first :: second :: clusters =>
    if quoted ∧ first = ['\\'] then .ofEscape second :: pieces quoted clusters
    else match doubled? first second, clusters with
      | some m, ['\x7b'] :: clusters => .braced m :: pieces quoted clusters
      | some m, clusters => .pair m :: pieces quoted clusters
      | none, clusters => .plain first :: pieces quoted (second :: clusters)

/-- A backslash that escapes nothing: the cluster after it, and the places of both ends. -/
structure InvalidEscape where
  cluster : List Char
  start : Place
  stop : Place
  deriving DecidableEq, Repr

/-- The invalid escapes among pieces that begin at `p`. -/
def invalidEscapes (p : Place) : List Piece → List InvalidEscape
  | [] => []
  | piece :: pieces =>
    let stop := piece.clusters.foldl Place.after p
    let rest := invalidEscapes stop pieces
    match piece with
    | .invalid cluster => ⟨cluster, p, stop⟩ :: rest
    | _ => rest

/-- The diagnostic is the report of the escape, about the file's text between its places. -/
structure InvalidEscape.ReportedBy (filename : String) (e : InvalidEscape) (d : Diagnostic) :
    Prop where
  code : d.code.text = "E2001"
  words : d = (Problem.invalidEscape (String.ofList e.cluster)).toDiagnostic d.subject none
  filename : d.subject.filename = filename
  start : e.start.Fits → .ofPos d.subject.start = e.start
  stop : e.stop.Fits → .ofPos d.subject.stop = e.stop

variable {quoted : Bool} {first second cluster : List Char} {clusters : List (List Char)}

theorem pieces_escape (second : List Char) (clusters : List (List Char)) :
    pieces true (['\\'] :: second :: clusters) = .ofEscape second :: pieces true clusters := by
  rw [pieces.eq_def]
  simp

theorem pieces_braced {m : Char} (hq : ¬(quoted = true ∧ first = ['\\']))
    (hm : doubled? first second = some m) :
    pieces quoted (first :: second :: ['\x7b'] :: clusters) =
      .braced m :: pieces quoted clusters := by
  simp [pieces, hq, hm]

theorem pieces_pair {m : Char} (hq : ¬(quoted = true ∧ first = ['\\']))
    (hm : doubled? first second = some m) (hb : ∀ rest, clusters ≠ ['\x7b'] :: rest) :
    pieces quoted (first :: second :: clusters) = .pair m :: pieces quoted clusters := by
  rw [pieces.eq_def]
  simp [hq, hm]

theorem pieces_plain (hq : ¬(quoted = true ∧ first = ['\\'])) (hm : doubled? first second = none) :
    pieces quoted (first :: second :: clusters) =
      .plain first :: pieces quoted (second :: clusters) := by
  simp [pieces, hq, hm]

theorem doubled?_eq_some {c : Char} (h : doubled? first second = some c) :
    ∃ m : Marker, c = m.char ∧ first = [m.char] ∧ second = [m.char] := by
  have hm := List.mem_of_find?_eq_some h
  have hp := List.find?_some h
  simp only [Bool.and_eq_true, beq_iff_eq] at hp
  simp only [markers, List.mem_cons, List.not_mem_nil, or_false] at hm
  rcases hm with rfl | rfl
  · exact ⟨.dollar, rfl, hp⟩
  · exact ⟨.bang, rfl, hp⟩

theorem doubled?_eq_none (h : doubled? first second = none) (m : Marker) (hf : first = [m.char]) :
    second ≠ [m.char] := by
  rintro rfl
  have := List.find?_eq_none.mp h m.char (by cases m <;> simp [markers, Marker.char])
  simp [hf] at this

theorem ofEscape_of_escaped? {c : Char} (h : escaped? cluster = some c) :
    ∃ letter, cluster = [letter] ∧ Piece.ofEscape cluster = .escape letter c := by
  unfold escaped? at h
  split at h <;> simp only [Option.some.injEq, reduceCtorEq] at h <;> subst h <;>
    exact ⟨_, rfl, rfl⟩

theorem ofEscape_of_not_escaped? (h : escaped? cluster = none) :
    Piece.ofEscape cluster = .invalid cluster := by
  unfold escaped? at h
  split at h <;> simp only [reduceCtorEq] at h
  simp_all [Piece.ofEscape, escapes]

theorem clusters_ofEscape (cluster : List Char) :
    (Piece.ofEscape cluster).clusters = [['\\'], cluster] := by
  unfold Piece.ofEscape
  split
  · rename_i hf
    have := List.find?_some hf
    simp only [beq_iff_eq] at this
    rw [this, Piece.clusters]
  · rfl

/-- Nothing is left out, and nothing is read twice. -/
theorem clusters_pieces (quoted : Bool) (clusters : List (List Char)) :
    (pieces quoted clusters).flatMap Piece.clusters = clusters := by
  induction clusters using pieces.induct quoted with
  | case1 => rfl
  | case2 cluster => rfl
  | case3 first second clusters h ih =>
    obtain ⟨rfl, rfl⟩ := h
    rw [pieces_escape, List.flatMap_cons, clusters_ofEscape, ih]
    rfl
  | case4 first second hq m clusters hm ih =>
    rw [pieces_braced hq hm, List.flatMap_cons, ih]
    obtain ⟨m, rfl, rfl, rfl⟩ := doubled?_eq_some hm
    rfl
  | case5 first second hq m clusters hb hm ih =>
    rw [pieces_pair hq hm hb, List.flatMap_cons, ih]
    obtain ⟨m, rfl, rfl, rfl⟩ := doubled?_eq_some hm
    rfl
  | case6 first second hq clusters hm ih =>
    rw [pieces_plain hq hm, List.flatMap_cons, ih]
    rfl

variable {filename : String} {p : Pos}

theorem ofCluster?_char (m : Marker) : Marker.ofCluster? [m.char] = some m := by cases m <;> rfl

theorem ofCluster?_eq_none (h : ∀ m : Marker, cluster ≠ [m.char]) :
    Marker.ofCluster? cluster = none := by
  unfold Marker.ofCluster?
  split
  · exact absurd rfl (h .dollar)
  · exact absurd rfl (h .bang)
  · rfl

/-- A marker waits, and comes out as it is if it is not doubled. -/
theorem decodeFrom_marker {m : Marker} (h : clusters.head? ≠ some [m.char]) :
    decodeFrom filename quoted (.marker m) p clusters =
      (m.char :: (decodeFrom filename quoted .nothing p clusters).1,
        (decodeFrom filename quoted .nothing p clusters).2) := by
  cases clusters with
  | nil => rfl
  | cons cluster clusters =>
    have hne : cluster ≠ [m.char] := fun he => h (congrArg some he)
    simp only [decodeFrom, Pending.read, hne, if_false, List.cons_append, List.nil_append]

/-- A doubled marker waits, and comes out as it is if no brace follows. -/
theorem decodeFrom_doubled {m : Marker} (h : ∀ rest, clusters ≠ ['\x7b'] :: rest) :
    decodeFrom filename quoted (.doubled m) p clusters =
      (m.char :: m.char :: (decodeFrom filename quoted .nothing p clusters).1,
        (decodeFrom filename quoted .nothing p clusters).2) := by
  cases clusters with
  | nil => rfl
  | cons cluster clusters =>
    have hne : cluster ≠ ['\x7b'] := fun he => h clusters (by rw [he])
    simp only [decodeFrom, Pending.read, hne, if_false, List.cons_append, List.nil_append]

theorem decodeFrom_backslash_cons (clusters : List (List Char)) :
    decodeFrom filename true .nothing p (['\\'] :: clusters) =
      decodeFrom filename true (.backslash p) (advance p ['\\']) clusters := by
  simp [decodeFrom, Pending.read, readFresh]

theorem decodeFrom_marker_cons (m : Marker) (clusters : List (List Char)) :
    decodeFrom filename quoted .nothing p ([m.char] :: clusters) =
      decodeFrom filename quoted (.marker m) (advance p [m.char]) clusters := by
  have hb : ([m.char] == ['\\']) = false := by cases m <;> rfl
  simp [decodeFrom, Pending.read, readFresh, hb, ofCluster?_char]

theorem decodeFrom_doubled_cons (m : Marker) (clusters : List (List Char)) :
    decodeFrom filename quoted .nothing p ([m.char] :: [m.char] :: clusters) =
      decodeFrom filename quoted (.doubled m) (advance (advance p [m.char]) [m.char]) clusters := by
  rw [decodeFrom_marker_cons]
  simp [decodeFrom, Pending.read]

/-- A cluster that is no part of an escape or a doubled marker stands for itself. -/
theorem decodeFrom_plain_cons (hq : ¬(quoted = true ∧ cluster = ['\\']))
    (hm : ∀ m : Marker, cluster = [m.char] → clusters.head? ≠ some [m.char]) :
    decodeFrom filename quoted .nothing p (cluster :: clusters) =
      (cluster ++ (decodeFrom filename quoted .nothing (advance p cluster) clusters).1,
        (decodeFrom filename quoted .nothing (advance p cluster) clusters).2) := by
  by_cases h : ∃ m : Marker, cluster = [m.char]
  · obtain ⟨m, rfl⟩ := h
    rw [decodeFrom_marker_cons, decodeFrom_marker (hm m rfl)]
    rfl
  · have hb : (quoted && cluster == ['\\']) = false := by simpa using hq
    have hno := ofCluster?_eq_none fun m hc => h ⟨m, hc⟩
    simp [decodeFrom, Pending.read, readFresh, hb, hno]

def InvalidEscape.toDiagnostic (filename : String) (e : InvalidEscape) : Diagnostic :=
  (Problem.invalidEscape (String.ofList e.cluster)).toDiagnostic
    ⟨filename, e.start.toPos, e.stop.toPos⟩ none

theorem InvalidEscape.reportedBy_toDiagnostic (filename : String) (e : InvalidEscape) :
    e.ReportedBy filename (e.toDiagnostic filename) :=
  ⟨rfl, rfl, rfl, Place.Fits.ofPos_toPos, Place.Fits.ofPos_toPos⟩

/-- Between two pieces nothing waits, so the decoder is followed from piece to piece. -/
theorem decodeFrom_pieces (p : Place) : decodeFrom filename quoted .nothing p.toPos clusters =
    ((pieces quoted clusters).flatMap Piece.text,
      (invalidEscapes p (pieces quoted clusters)).map (InvalidEscape.toDiagnostic filename)) := by
  induction clusters using pieces.induct quoted generalizing p with
  | case1 => rfl
  | case2 cluster =>
    -- a backslash at the end has nothing to escape
    by_cases hq : quoted = true ∧ cluster = ['\\']
    · obtain ⟨rfl, rfl⟩ := hq
      rw [decodeFrom_backslash_cons]
      rfl
    · rw [decodeFrom_plain_cons hq (by simp)]
      simp [decodeFrom, Pending.finish, pieces, Piece.text, invalidEscapes]
  | case3 first second clusters h ih =>
    obtain ⟨rfl, rfl⟩ := h
    have hnext := ih ((p.after ['\\']).after second)
    simp only [Place.toPos_after] at hnext
    rw [decodeFrom_backslash_cons, pieces_escape]
    cases he : escaped? second with
    | some c =>
      obtain ⟨letter, rfl, hp⟩ := ofEscape_of_escaped? he
      simp only [decodeFrom, Pending.read, he, hnext, hp]
      simp [Piece.text, invalidEscapes, Piece.clusters]
    | none =>
      simp only [decodeFrom, Pending.read, he, hnext, ofEscape_of_not_escaped? he]
      simp [Piece.text, invalidEscapes, Piece.clusters, InvalidEscape.toDiagnostic,
        Place.toPos_after]
  | case4 first second hq m clusters hm ih =>
    rw [pieces_braced hq hm]
    obtain ⟨m, rfl, rfl, rfl⟩ := doubled?_eq_some hm
    have hnext := ih (((p.after [m.char]).after [m.char]).after ['\x7b'])
    simp only [Place.toPos_after] at hnext
    rw [decodeFrom_doubled_cons]
    simp [decodeFrom, Pending.read, hnext, Piece.text, invalidEscapes, Piece.clusters]
  | case5 first second hq m clusters hb hm ih =>
    rw [pieces_pair hq hm hb]
    obtain ⟨m, rfl, rfl, rfl⟩ := doubled?_eq_some hm
    have hnext := ih ((p.after [m.char]).after [m.char])
    simp only [Place.toPos_after] at hnext
    rw [decodeFrom_doubled_cons, decodeFrom_doubled hb, hnext]
    simp [Piece.text, invalidEscapes, Piece.clusters]
  | case6 first second hq clusters hm ih =>
    have hnext := ih (p.after first)
    rw [Place.toPos_after] at hnext
    rw [pieces_plain hq hm, decodeFrom_plain_cons hq fun m hf => ?_, hnext]
    · simp [Piece.text, invalidEscapes, Piece.clusters]
    · simpa using doubled?_eq_none hm m hf

theorem decode_pieces (s : Segmentation) (t : Token) : decodeWith s t =
    (String.ofList ((pieces (t.kind == .quotedChunk) (s.split t.chars)).flatMap Piece.text),
      (invalidEscapes (.ofPos t.range.start)
        (pieces (t.kind == .quotedChunk) (s.split t.chars))).map
          (InvalidEscape.toDiagnostic t.range.filename)) := by
  unfold decodeWith
  rw [← Place.toPos_ofPos t.range.start, decodeFrom_pieces, Place.toPos_ofPos]

/-- A chunk in UTF-8 says what the pieces of its clusters stand for, and its diagnostics are the
reports of the invalid escapes among them, one each and in their order. This is so for any way to
cut texts into clusters. -/
theorem decode_is_rewriting (s : Segmentation) (text : String) (kind : TokenKind)
    (range : SourceRange) :
    let written := s.split text.toList
    let read := pieces (kind == .quotedChunk) written
    let answer := decodeWith s ⟨kind, Utf8.encode text, range⟩
    read.flatMap Piece.clusters = written ∧
      answer.1 = String.ofList (read.flatMap Piece.text) ∧
      List.Forall₂ (InvalidEscape.ReportedBy range.filename)
        (invalidEscapes (.ofPos range.start) read) answer.2 := by
  intro written read answer
  have hchars : (⟨kind, Utf8.encode text, range⟩ : Token).chars = text.toList :=
    Utf8.decode_encode text
  have hanswer : answer = (String.ofList (read.flatMap Piece.text),
      (invalidEscapes (.ofPos range.start) read).map
        (InvalidEscape.toDiagnostic range.filename)) := by
    have h := decode_pieces s ⟨kind, Utf8.encode text, range⟩
    rw [hchars] at h
    exact h
  rw [hanswer]
  refine ⟨clusters_pieces _ _, rfl, List.forall₂_map_right_iff.mpr ?_⟩
  exact List.forall₂_same.mpr fun e _ => e.reportedBy_toDiagnostic _

/-- A run of three is a pair and one more, that the brace does not shorten. -/
example : pieces true (Cluster.split ['\\', 'q', '$', '$', '$', '\x7b', '!', '!', '\x7b']) =
    [.invalid ['q'], .pair '$', .plain ['$'], .plain ['\x7b'], .braced '!'] := by decide

end StringChunk

end HclSyntax
