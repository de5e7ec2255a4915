import HclSyntax.Proofs.Text.EscapePlace
import HclSyntax.Proofs.Written.Value

namespace HclSyntax

/-- There are no more clusters than characters, and fewer unless every cluster is a single one. -/
theorem length_le_flatten {clusters : List (List Char)} (h : ∀ cluster ∈ clusters, cluster ≠ []) :
    clusters.length ≤ clusters.flatten.length ∧
      (clusters.flatten.length = clusters.length ↔ ∀ cluster ∈ clusters, cluster.length = 1) := by
  induction clusters with
  | nil => simp
  | cons cluster clusters ih =>
    rw [List.forall_mem_cons] at h ⊢
    obtain ⟨hle, hiff⟩ := ih h.2
    have hpos := List.length_pos_of_ne_nil h.1
    rw [List.flatten_cons, List.length_append, List.length_cons, ← hiff]
    omega

theorem Segmentation.length_split (s : Segmentation) (text : List Char) :
    (s.split text).length ≤ text.length ∧
      (text.length = (s.split text).length ↔ ∀ cluster ∈ s.split text, cluster.length = 1) := by
  have hne : ∀ cluster ∈ s.split text, cluster ≠ [] := fun _ => s.ne_nil
  have h := length_le_flatten hne
  rwa [s.flatten_split] at h

theorem Utf8.length_le_byteLength (text : List Char) : text.length ≤ byteLength text := by
  induction text with
  | nil => exact Nat.le_refl 0
  | cons c text ih =>
    have hpos := c.utf8Size_pos
    rw [List.length_cons, byteLength]
    omega

/-- On one line every cluster is a column. -/
theorem StringChunk.foldl_advance {clusters : List (List Char)} (h : '\n' ∉ clusters.flatten)
    (p : Pos) : clusters.foldl advance p = ⟨p.line, p.column + .ofNat clusters.length,
      p.byte + .ofNat (Utf8.byteLength clusters.flatten)⟩ := by
  induction clusters generalizing p with
  | nil => simp [Utf8.byteLength]
  | cons cluster clusters ih =>
    rw [List.flatten_cons, List.mem_append, not_or] at h
    have hline : ¬(cluster = ['\n'] ∨ cluster = ['\r', '\n']) := by
      rintro (rfl | rfl) <;> simp at h
    rw [List.foldl_cons, ih h.2, advance, if_neg hline, List.flatten_cons,
      Utf8.byteLength_append, List.length_cons, Nat.add_comm clusters.length, UInt32.ofNat_add,
      UInt32.ofNat_add, ← UInt32.add_assoc, ← UInt32.add_assoc]
    rfl

/-- The newline of a comment and where it begins. -/
theorem Token.splitNewline_text {t : Token} {text : String}
    (hb : t.bytes = Utf8.encode (text ++ "\n")) (ht : t.Exact) : t.splitNewline =
      let newline : Pos := ⟨t.range.start.line, t.range.start.column + .ofNat text.length,
        t.range.start.byte + .ofNat (Utf8.byteLength text.toList)⟩
      [⟨.comment, Utf8.encode text, ⟨t.range.filename, t.range.start, newline⟩⟩,
        ⟨.newline, [0x0A], ⟨t.range.filename, newline, t.range.stop⟩⟩] := by
  have hbytes : t.bytes = Utf8.encode text ++ [0x0A] := by
    rw [hb, ← String.ofList_toList (s := text ++ "\n"), String.toList_append, Utf8.encode_append,
      String.ofList_toList]
    congr 1
    exact Utf8.encode_ofList ['\n']
  have hlen : (Utf8.encode text).length = Utf8.byteLength text.toList := by
    rw [← Utf8.length_encode, String.ofList_toList]
  have hstop : t.range.stop.byte - 1 =
      t.range.start.byte + .ofNat (Utf8.byteLength text.toList) := by
    have hwide : t.range.stop.byte.toNat = t.range.start.byte.toNat +
        (Utf8.byteLength text.toList + 1) := by
      rw [← hlen]
      exact ht.trans (by rw [hbytes, List.length_append]; rfl)
    have hbound := t.range.stop.byte.toNat_lt
    have hone : (1 : UInt32) ≤ t.range.stop.byte := by
      rw [UInt32.le_iff_toNat_le, hwide]
      exact Nat.le_add_left _ _
    apply UInt32.toNat_inj.mp
    rw [UInt32.toNat_sub_of_le _ _ hone, UInt32.toNat_add, UInt32.toNat_ofNat', Nat.add_mod_mod,
      Nat.mod_eq_of_lt (by omega), hwide]
    rfl
  simp only [splitNewline, hbytes, List.dropLast_concat, Utf8.decode_encode, String.length_toList]
  rw [hstop]

/-- The newline that ends a comment begins at the line and the byte where the decoder would come to,
and so many columns further as the comment has characters that join the one before, whatever the
clusters are. -/
theorem comment_width (s : Segmentation) (tokens : TokenList) (front back : List Token)
    (comment : Token) (text : String) (hin : tokens.body = front ++ comment :: back)
    (hc : comment.endsWithNewline) (hb : comment.bytes = Utf8.encode (text ++ "\n"))
    (hn : '\n' ∉ text.toList) (hw : comment.Exact) :
    let clusters := s.split text.toList
    let reached := clusters.foldl StringChunk.advance comment.range.start
    ∃ words newline, tokens.splitLineComments.body =
        splitComments front ++ words :: newline :: splitComments back ∧
      words.bytes = Utf8.encode text ∧ newline.kind = .newline ∧ newline.bytes = [0x0A] ∧
      newline.range.start.line = reached.line ∧ newline.range.start.byte = reached.byte ∧
      newline.range.start.column = reached.column + .ofNat (text.length - clusters.length) ∧
      (newline.range.start = reached ↔ ∀ cluster ∈ clusters, cluster.length = 1) := by
  intro clusters reached
  obtain ⟨hle, hiff⟩ := s.length_split text.toList
  rw [String.length_toList] at hle hiff
  have hflat : clusters.flatten = text.toList := s.flatten_split _
  have hreached : reached = ⟨comment.range.start.line,
      comment.range.start.column + .ofNat clusters.length,
      comment.range.start.byte + .ofNat (Utf8.byteLength text.toList)⟩ := by
    rw [← hflat]
    exact StringChunk.foldl_advance (hflat ▸ hn) _
  have hbody : tokens.splitLineComments.body =
      splitComments front ++ (comment.splitNewline ++ splitComments back) := by
    change splitComments tokens.body = _
    rw [hin, splitComments_append]
    simp [splitComments, hc]
  rw [Token.splitNewline_text hb hw] at hbody
  refine ⟨_, _, hbody, rfl, rfl, rfl, ?_, ?_, ?_, ?_⟩ <;> rw [hreached]
  · change _ + _ = _ + _ + _
    rw [UInt32.add_assoc, ← UInt32.ofNat_add, Nat.add_sub_of_le hle]
  · have hshort : text.length < UInt32.size := by
      have hbound := comment.range.stop.byte.toNat_lt_size
      have hbytes := Utf8.length_encode (text ++ "\n").toList
      rw [String.ofList_toList, ← hb, String.toList_append, Utf8.byteLength_append] at hbytes
      have hchars := Utf8.length_le_byteLength text.toList
      rw [String.length_toList] at hchars
      have hw : comment.range.stop.byte.toNat =
        comment.range.start.byte.toNat + comment.bytes.length := hw
      omega
    -- two numbers of columns that fit are the same if they come to the same column
    rw [← hiff, Pos.mk.injEq]
    simp only [true_and, and_true, UInt32.add_right_inj]
    constructor
    · intro h
      have hnat := congrArg UInt32.toNat h
      rwa [UInt32.toNat_ofNat_of_lt' hshort,
        UInt32.toNat_ofNat_of_lt' (Nat.lt_of_le_of_lt hle hshort)] at hnat
    · exact congrArg UInt32.ofNat

/-- A source that is a comment on a line. -/
def commentLine (comment : Token) : TokenList where
  body := [comment]
  eof := ⟨.eof, [], comment.range.endPoint⟩
  eof_kind := @rfl _ TokenKind.eof

/-- An accent that is a part of its letter: `# é`. -/
def composedAccent : Token :=
  ⟨.comment, [0x23, 0x20, 0xC3, 0xA9, 0x0A], ⟨"", ⟨1, 1, 0⟩, ⟨2, 1, 5⟩⟩⟩

theorem composedAccent_width : composedAccent.endsWithNewline ∧
    composedAccent.bytes = Utf8.encode ("# \u00e9" ++ "\n") ∧ '\n' ∉ "# \u00e9".toList ∧
    composedAccent.Exact ∧
    ∃ words newline, (commentLine composedAccent).splitLineComments.body = [words, newline] ∧
      newline.range.start =
        (Cluster.segmentation.split "# \u00e9".toList).foldl StringChunk.advance
          composedAccent.range.start := by
  have hc : composedAccent.endsWithNewline := by decide
  have hb : composedAccent.bytes = Utf8.encode ("# \u00e9" ++ "\n") := by decide +kernel
  have hn : '\n' ∉ "# \u00e9".toList := by decide
  have hw : composedAccent.Exact := by decide
  obtain ⟨words, newline, hbody, -, -, -, -, -, -, hplace⟩ :=
    comment_width Cluster.segmentation (commentLine composedAccent) [] [] composedAccent _ rfl hc
      hb hn hw
  exact ⟨hc, hb, hn, hw, words, newline, hbody, hplace.mpr (by decide +kernel)⟩

/-- The same accent as a character that joins the letter. -/
def joiningAccent : Token :=
  ⟨.comment, [0x23, 0x20, 0x65, 0xCC, 0x81, 0x0A], ⟨"", ⟨1, 1, 0⟩, ⟨2, 1, 6⟩⟩⟩

/-- The newline is put a column behind the place where the comment ends. -/
theorem joiningAccent_is_too_wide : joiningAccent.endsWithNewline ∧
    joiningAccent.bytes = Utf8.encode ("# e\u0301" ++ "\n") ∧ '\n' ∉ "# e\u0301".toList ∧
    joiningAccent.Exact ∧
    ∃ newline ∈ (commentLine joiningAccent).splitLineComments.body, newline.kind = .newline ∧
      newline.range.start ≠
        (Cluster.segmentation.split "# e\u0301".toList).foldl StringChunk.advance
          joiningAccent.range.start := by
  decide +kernel

end HclSyntax
