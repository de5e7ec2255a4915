import HclSyntax.Proofs.Range.Tree
import HclSyntax.Proofs.Text.Rewriting

namespace HclSyntax

namespace Token

/-- The range of the token is as wide as its bytes. -/
def Exact (t : Token) : Prop := t.range.hi = t.range.lo + t.bytes.length

instance (t : Token) : Decidable t.Exact := inferInstanceAs (Decidable (_ = _))

/-- What the token holds in a range, counted from where it begins. -/
def bytesIn (t : Token) (r : SourceRange) : List UInt8 :=
  (t.bytes.drop (r.lo - t.range.lo)).take (r.hi - r.lo)

/-- The diagnostic is about bytes of the token that are a backslash and a cluster which that does
not escape. -/
def HoldsEscape (t : Token) (d : Diagnostic) : Prop :=
  t.range.contains d.subject ∧ d.subject.lo ≤ d.subject.hi ∧ ∃ cluster : String,
    d = (Problem.invalidEscape cluster).toDiagnostic d.subject none ∧
      t.bytesIn d.subject = 0x5C :: Utf8.encode cluster

end Token

namespace StringChunk

open Utf8 (byteLength)

variable {s : Segmentation} {e : InvalidEscape} {p : Place} {ps : List Piece} {t : Token}
variable {d : Diagnostic}

theorem exists_of_mem_invalidEscapes (h : e ∈ invalidEscapes p ps) :
    ∃ before after, ps = before ++ .invalid e.cluster :: after ∧
      e.start = (before.flatMap Piece.clusters).foldl Place.after p ∧
      e.stop = [['\\'], e.cluster].foldl Place.after e.start := by
  induction ps generalizing p with
  | nil => cases h
  | cons piece ps ih =>
    have hlater (h : e ∈ invalidEscapes (piece.clusters.foldl Place.after p) ps) :
        ∃ before after, piece :: ps = before ++ .invalid e.cluster :: after ∧
          e.start = (before.flatMap Piece.clusters).foldl Place.after p ∧
          e.stop = [['\\'], e.cluster].foldl Place.after e.start := by
      obtain ⟨before, after, rfl, hstart, hstop⟩ := ih h
      exact ⟨piece :: before, after, rfl, by simpa using hstart, hstop⟩
    unfold invalidEscapes at h
    split at h
    · rcases List.mem_cons.mp h with rfl | h
      · exact ⟨[], ps, rfl, rfl, rfl⟩
      · exact hlater h
    · exact hlater h

theorem byte_foldl_after (p : Place) (clusters : List (List Char)) :
    (clusters.foldl Place.after p).byte = p.byte + byteLength clusters.flatten := by
  induction clusters generalizing p with
  | nil => rfl
  | cons cluster clusters ih =>
    have hafter : (p.after cluster).byte = p.byte + byteLength cluster := by
      rw [← Utf8.length_encode, Place.after]
      split <;> rfl
    rw [List.foldl_cons, ih, hafter, List.flatten_cons, Utf8.byteLength_append, Nat.add_assoc]

/-- Every report is about a backslash and a cluster of the text, with its bytes counted from the
beginning of the token in 32 bits. -/
theorem exists_of_mem_decode (h : d ∈ (decodeWith s t).2) : ∃ front cluster back,
    t.chars = front ++ '\\' :: cluster ++ back ∧
      d = (Problem.invalidEscape (String.ofList cluster)).toDiagnostic d.subject none ∧
      d.subject.lo = (t.range.lo + byteLength front) % UInt32.size ∧
      d.subject.hi = (t.range.lo + byteLength (front ++ '\\' :: cluster)) % UInt32.size := by
  rw [decode_pieces] at h
  obtain ⟨e, he, rfl⟩ := List.mem_map.mp h
  obtain ⟨before, after, hpieces, hstart, hstop⟩ := exists_of_mem_invalidEscapes he
  have hread := clusters_pieces (t.kind == .quotedChunk) (s.split t.chars)
  have hstartByte := congrArg Place.byte hstart
  have hstopByte := congrArg Place.byte hstop
  rw [byte_foldl_after] at hstartByte hstopByte
  refine ⟨(before.flatMap Piece.clusters).flatten, e.cluster,
    (after.flatMap Piece.clusters).flatten, ?_, rfl, ?_, ?_⟩
  · rw [← s.flatten_split t.chars, ← hread, hpieces]
    simp [Piece.clusters]
  · change (UInt32.ofNat e.start.byte).toNat = _
    rw [UInt32.toNat_ofNat', hstartByte]
    rfl
  · change (UInt32.ofNat e.stop.byte).toNat = _
    rw [UInt32.toNat_ofNat', hstopByte, hstartByte, Utf8.byteLength_append, ← Nat.add_assoc]
    simp only [List.flatten_cons, List.flatten_nil, List.append_nil, List.singleton_append]
    rfl

/-- An escape is in place if nothing was replaced up to its end. -/
theorem holdsEscape_of_isPrefix {front cluster : List Char} (ht : t.Exact)
    (hw : d = (Problem.invalidEscape (String.ofList cluster)).toDiagnostic d.subject none)
    (hlo : d.subject.lo = (t.range.lo + byteLength front) % UInt32.size)
    (hhi : d.subject.hi = (t.range.lo + byteLength (front ++ '\\' :: cluster)) % UInt32.size)
    (hb : Utf8.encode (String.ofList (front ++ '\\' :: cluster)) <+: t.bytes) :
    t.HoldsEscape d := by
  have hlen := hb.length_le
  have hbound : t.range.hi < UInt32.size := t.range.stop.byte.toNat_lt_size
  rw [Utf8.length_encode] at hlen
  rw [Token.Exact] at ht
  rw [Utf8.byteLength_append] at hhi hlen
  rw [Nat.mod_eq_of_lt (by omega)] at hlo hhi
  refine ⟨SourceRange.contains_iff.mpr ⟨by omega, by omega⟩, by omega, String.ofList cluster, hw,
    ?_⟩
  obtain ⟨rest, hb⟩ := hb
  have hfront : (Utf8.encode (String.ofList front)).length = byteLength front :=
    Utf8.length_encode front
  have hpair : (Utf8.encode (String.ofList ('\\' :: cluster))).length =
      byteLength ('\\' :: cluster) := Utf8.length_encode _
  rw [Token.bytesIn, ← hb, hlo, hhi, Nat.add_sub_cancel_left, ← Nat.add_assoc,
    Nat.add_sub_cancel_left, Utf8.encode_append, List.append_assoc, List.drop_left' hfront,
    List.take_left' hpair]
  rw [Utf8.encode_ofList, Utf8.encode_ofList]
  rfl

/-- In UTF-8 every invalid escape is reported where it stands in the token. In other bytes so are
those in front of the first that is replaced. -/
theorem escapes_are_reported_in_place (s : Segmentation) (t : Token) (ht : t.Exact) :
    (Utf8.Valid t.bytes → ∀ d ∈ (decodeWith s t).2, t.HoldsEscape d) ∧
      ∀ d ∈ (decodeWith s t).2, ∃ front cluster back, t.chars = front ++ '\\' :: cluster ++ back ∧
        d = (Problem.invalidEscape (String.ofList cluster)).toDiagnostic d.subject none ∧
        (Utf8.encode (String.ofList (front ++ '\\' :: cluster)) <+: t.bytes →
          t.HoldsEscape d) := by
  refine ⟨fun hv d hd => ?_, fun d hd => ?_⟩
  all_goals obtain ⟨front, cluster, back, hchars, hw, hlo, hhi⟩ := exists_of_mem_decode hd
  · refine holdsEscape_of_isPrefix ht hw hlo hhi ⟨Utf8.encode (String.ofList back), ?_⟩
    rw [← Utf8.encode_append, ← hchars]
    exact hv.encode_decode
  · exact ⟨front, cluster, back, hchars, hw, holdsEscape_of_isPrefix ht hw hlo hhi⟩

/-- An accent and an invalid escape: `é\q`. -/
def accentedEscape : Token :=
  ⟨.quotedChunk, [0xC3, 0xA9, 0x5C, 0x71], ⟨"", ⟨1, 1, 0⟩, ⟨1, 4, 4⟩⟩⟩

theorem accentedEscape_in_place : accentedEscape.Exact ∧ Utf8.Valid accentedEscape.bytes ∧
    (decode accentedEscape).2.map (fun d => (d.subject.lo, d.subject.hi)) = [(2, 4)] ∧
    (∀ d ∈ (decode accentedEscape).2, accentedEscape.HoldsEscape d) ∧
    ∀ d ∈ (decode accentedEscape).2, ∃ front cluster back,
      accentedEscape.chars = front ++ '\\' :: cluster ++ back ∧
        d = (Problem.invalidEscape (String.ofList cluster)).toDiagnostic d.subject none ∧
        accentedEscape.HoldsEscape d := by
  have ht : accentedEscape.Exact := by decide
  have hv : Utf8.Valid accentedEscape.bytes := ⟨"é\\q", by decide +kernel⟩
  obtain ⟨hall, heach⟩ := escapes_are_reported_in_place Cluster.segmentation accentedEscape ht
  refine ⟨ht, hv, by decide +kernel, hall hv, fun d hd => ?_⟩
  obtain ⟨front, cluster, back, hchars, hw, hplace⟩ := heach d hd
  refine ⟨front, cluster, back, hchars, hw, hplace ⟨Utf8.encode (String.ofList back), ?_⟩⟩
  rw [← Utf8.encode_append, ← hchars]
  exact hv.encode_decode

/-- The same behind a byte that is no UTF-8: one byte of the token, but three of the text. -/
def strayByte : Token := ⟨.quotedChunk, [0xFF, 0x5C, 0x71], ⟨"", ⟨1, 1, 0⟩, ⟨1, 4, 3⟩⟩⟩

/-- The escape begins one byte behind the token's first, and is reported where the token ends. -/
theorem strayByte_moves_report : strayByte.Exact ∧ ∃ d ∈ (decode strayByte).2,
    ¬strayByte.range.contains d.subject ∧ (strayByte.bytesIn d.subject).head? ≠ some 0x5C := by
  decide +kernel

end StringChunk

end HclSyntax
