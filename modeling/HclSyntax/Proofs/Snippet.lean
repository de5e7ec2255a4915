import HclSyntax.Diagnostic.Report
import HclSyntax.Proofs.Text.Utf8
import Mathlib.Data.List.Basic
import Mathlib.Data.List.TakeWhile

namespace HclSyntax

open Utf8 (byteLength)

namespace Utf8

theorem byteLength_eq_zero {text : List Char} : byteLength text = 0 ↔ text = [] := by
  cases text with
  | nil => simp [byteLength]
  | cons c text =>
    have := Char.utf8Size_pos c
    simp only [byteLength, reduceCtorEq, iff_false]
    omega

/-- Prefixes of one text compare in bytes as they do in characters. -/
theorem byteLength_le_iff {text a b : List Char} (ha : a <+: text) (hb : b <+: text) :
    byteLength a ≤ byteLength b ↔ a.length ≤ b.length := by
  have grows {a b : List Char} (h : a <+: b) : byteLength a ≤ byteLength b := by
    obtain ⟨k, rfl⟩ := h
    rw [byteLength_append]
    omega
  constructor
  · intro h
    obtain hab | ⟨k, rfl⟩ := List.prefix_or_prefix_of_prefix ha hb
    · exact hab.length_le
    · have hk : byteLength k = 0 := by
        rw [byteLength_append] at h
        omega
      simp [byteLength_eq_zero.1 hk]
  · exact fun h => grows (List.prefix_of_prefix_length_le ha hb h)

/-- The offset is behind the first byte of a character of the text and before its last. -/
def InsideChar (text : List Char) (n : Nat) : Prop :=
  ∃ before c after, text = before ++ c :: after ∧
    byteLength before < n ∧ n < byteLength before + c.utf8Size

theorem InsideChar.append_left {text : List Char} {n : Nat} (h : InsideChar text n)
    (front : List Char) : InsideChar (front ++ text) (byteLength front + n) := by
  obtain ⟨before, c, after, rfl, hlt, hgt⟩ := h
  refine ⟨front ++ before, c, after, by rw [List.append_assoc], ?_, ?_⟩ <;>
    rw [byteLength_append] <;> omega

/-- No character of the text goes past the end of a prefix of it. -/
theorem not_insideChar_of_split {a b : List Char} : ¬InsideChar (a ++ b) (byteLength a) := by
  rintro ⟨before, c, after, h, hlt, hgt⟩
  have hbefore : before <+: a ++ b := ⟨c :: after, h.symm⟩
  have hbehind : before ++ [c] <+: a ++ b := ⟨after, by simp [h]⟩
  have hc : byteLength (before ++ [c]) = byteLength before + c.utf8Size := by simp [byteLength]
  have hlt := mt (byteLength_le_iff ⟨b, rfl⟩ hbefore).2 (by omega)
  have hgt := mt (byteLength_le_iff hbehind ⟨b, rfl⟩).2 (by omega)
  rw [List.length_append, List.length_singleton] at hgt
  omega

end Utf8

open Utf8 (InsideChar)

/-- A line of the text and what is around it, the line that an offset falls on: from the start of
the line to its end, where the newline is. -/
structure LineAt (text : List Char) (offset : Nat) (front line back : List Char) : Prop where
  whole : text = front ++ (line ++ back)
  begins : front = [] ∨ front.getLast? = some '\n'
  unbroken : '\n' ∉ line
  ends : back = [] ∨ back.head? = some '\n'
  from_le : byteLength front ≤ offset
  le_to : offset ≤ byteLength front + byteLength line

namespace LineAt

variable {text front line back front' line' back' : List Char} {offset : Nat}

private theorem front_not_longer (h : LineAt text offset front line back)
    (h' : LineAt text offset front' line' back') : front'.length ≤ front.length := by
  refine Nat.le_of_not_lt fun hlonger => ?_
  obtain ⟨k, rfl⟩ : front <+: front' :=
    List.prefix_of_prefix_length_le ⟨_, h.whole.symm⟩ ⟨_, h'.whole.symm⟩ (by omega)
  -- the front that goes on holds the newline at its end, which is then one of the line
  have hk : k ≠ [] := by
    rintro rfl
    simp at hlonger
  have hnewline : '\n' ∈ k := by
    obtain hnil | hlast := h'.begins
    · simp [hk] at hnil
    · rw [List.getLast?_append_of_ne_nil _ hk] at hlast
      exact List.mem_of_getLast? hlast
  have hrest : line ++ back = k ++ (line' ++ back') := by
    have := h.whole.symm.trans h'.whole
    rwa [List.append_assoc, List.append_cancel_left_eq] at this
  have hle : byteLength k ≤ byteLength line := by
    have hfrom := h'.from_le
    have hto := h.le_to
    rw [Utf8.byteLength_append] at hfrom
    omega
  have hline : k <+: line := by
    refine List.prefix_of_prefix_length_le ⟨_, hrest.symm⟩ ⟨back, rfl⟩ ?_
    exact (Utf8.byteLength_le_iff ⟨_, hrest.symm⟩ ⟨back, rfl⟩).1 hle
  exact h.unbroken (hline.subset hnewline)

private theorem line_not_longer (h : LineAt text offset front line back)
    (h' : LineAt text offset front line' back') : line'.length ≤ line.length := by
  refine Nat.le_of_not_lt fun hlonger => ?_
  have hrest : line ++ back = line' ++ back' :=
    List.append_cancel_left (h.whole.symm.trans h'.whole)
  obtain ⟨m, rfl⟩ : line <+: line' :=
    List.prefix_of_prefix_length_le ⟨_, hrest⟩ ⟨_, rfl⟩ (by omega)
  obtain _ | ⟨c, m⟩ := m
  · simp at hlonger
  · have hback : back = c :: m ++ back' := by simpa using hrest
    have hc : c = '\n' := by simpa [hback] using h.ends
    exact h'.unbroken (by simp [hc])

/-- There is one such line. -/
theorem unique (h : LineAt text offset front line back)
    (h' : LineAt text offset front' line' back') :
    front = front' ∧ line = line' ∧ back = back' := by
  obtain ⟨rfl, hrest⟩ := List.append_inj (h.whole.symm.trans h'.whole)
    (Nat.le_antisymm (front_not_longer h' h) (front_not_longer h h'))
  have hline := Nat.le_antisymm (line_not_longer h' h) (line_not_longer h h')
  exact ⟨rfl, List.append_inj hrest hline⟩

end LineAt

namespace Snippet

theorem splitAtByte?_eq_some {n : Nat} {text a b : List Char} :
    splitAtByte? n text = some (a, b) ↔ text = a ++ b ∧ byteLength a = n := by
  fun_induction splitAtByte? n text generalizing a b with
  | case1 text =>
    rw [Utf8.byteLength_eq_zero]
    constructor
    · intro h
      obtain ⟨rfl, rfl⟩ := Prod.mk.inj (Option.some.inj h)
      exact ⟨rfl, rfl⟩
    · rintro ⟨rfl, rfl⟩
      rfl
  | case2 n =>
    simp only [reduceCtorEq, false_iff, not_and]
    intro h
    obtain ⟨rfl, -⟩ := List.append_eq_nil_iff.1 h.symm
    simp [byteLength]
  | case3 n c text hfits ih =>
    simp only [Option.map_eq_some_iff, Prod.exists, Prod.mk.injEq, ih]
    constructor
    · rintro ⟨a, b, ⟨rfl, hlength⟩, rfl, rfl⟩
      refine ⟨rfl, ?_⟩
      rw [byteLength]
      omega
    · rintro ⟨htext, hlength⟩
      cases a with
      | nil => simp [byteLength] at hlength
      | cons d a =>
        obtain ⟨rfl, rfl⟩ := List.cons.inj htext
        rw [byteLength] at hlength
        exact ⟨a, b, ⟨rfl, by omega⟩, rfl, rfl⟩
  | case4 n c text hbig =>
    simp only [reduceCtorEq, false_iff, not_and]
    intro htext
    cases a with
    | nil => simp [byteLength]
    | cons d a =>
      obtain ⟨rfl, -⟩ := List.cons.inj htext
      rw [byteLength]
      omega

theorem splitAtByte?_eq_none {n : Nat} {text : List Char} (h : splitAtByte? n text = none) :
    byteLength text < n ∨ InsideChar text n := by
  fun_induction splitAtByte? n text with
  | case1 text => cases h
  | case2 n => exact .inl (by simp [byteLength])
  | case3 n c text hfits ih =>
    obtain hshort | hinside := ih (Option.map_eq_none_iff.1 h)
    · left
      rw [byteLength]
      omega
    · right
      have := hinside.append_left [c]
      simp only [byteLength, Nat.add_zero, List.singleton_append] at this
      rwa [Nat.add_sub_cancel' hfits] at this
  | case4 n c text hbig =>
    exact .inr ⟨[], c, text, rfl, by simp [byteLength], by simp only [byteLength]; omega⟩

theorem dropWhile_newline (text : List Char) :
    text.dropWhile (· ≠ '\n') = [] ∨ (text.dropWhile (· ≠ '\n')).head? = some '\n' := by
  have hhead := List.head?_dropWhile_not (· ≠ '\n') text
  cases hrest : text.dropWhile (· ≠ '\n') with
  | nil => exact .inl rfl
  | cons c rest =>
    rw [hrest] at hhead
    exact .inr (by simpa using hhead)

/-- The text in front of an offset and behind it holds the line of the offset. -/
theorem lineAt_lastLine (before after : List Char) :
    ∃ front, before = front ++ lastLine before ∧
      LineAt (before ++ after) (byteLength before) front
        (lastLine before ++ after.takeWhile (· ≠ '\n')) (after.dropWhile (· ≠ '\n')) := by
  have hbefore : before = (before.reverse.dropWhile (· ≠ '\n')).reverse ++ lastLine before := by
    rw [lastLine, ← List.reverse_append, List.takeWhile_append_dropWhile, List.reverse_reverse]
  have hlength := congrArg byteLength hbefore
  rw [Utf8.byteLength_append] at hlength
  refine ⟨_, hbefore, ?_, ?_, ?_, dropWhile_newline after, by omega, ?_⟩
  · rw [List.append_assoc, List.takeWhile_append_dropWhile, ← List.append_assoc, ← hbefore]
  · rw [List.getLast?_reverse, List.reverse_eq_nil_iff]
    exact dropWhile_newline before.reverse
  · rw [lastLine, List.mem_append, List.mem_reverse]
    rintro (h | h) <;> simpa using List.mem_takeWhile_imp h
  · rw [Utf8.byteLength_append]
    omega

theorem dropReturns_split (line : List Char) :
    ∃ k, line = dropReturns line ++ List.replicate k '\r' ∧
      (dropReturns line).getLast? ≠ some '\r' := by
  refine ⟨(line.reverse.takeWhile (· = '\r')).length, ?_, ?_⟩
  · have hreturns : List.replicate (line.reverse.takeWhile (· = '\r')).length '\r' =
        line.reverse.takeWhile (· = '\r') :=
      (List.eq_replicate_of_mem fun c h => by simpa using List.mem_takeWhile_imp h).symm
    rw [dropReturns, ← List.reverse_replicate, ← List.reverse_append, hreturns,
      List.takeWhile_append_dropWhile, List.reverse_reverse]
  · have hhead := List.head?_dropWhile_not (· = '\r') line.reverse
    rw [dropReturns, List.getLast?_reverse]
    intro hlast
    simp [hlast] at hhead

theorem byteLength_append_returns (text : List Char) (k : Nat) :
    byteLength (text ++ List.replicate k '\r') = byteLength text + k := by
  have hreturns : byteLength (List.replicate k '\r') = k := by
    induction k with
    | zero => rfl
    | succ k ih => rw [List.replicate_succ, byteLength, ih, Nat.add_comm]; rfl
  rw [Utf8.byteLength_append, hreturns]

/-- The carriage returns at the end of a line are a byte each. -/
theorem not_insideChar_returns {a b : List Char} {k n : Nat} (hfrom : byteLength a ≤ n)
    (hto : n ≤ byteLength a + k) : ¬InsideChar (a ++ (List.replicate k '\r' ++ b)) n := by
  obtain ⟨j, rfl⟩ := Nat.exists_eq_add_of_le hfrom
  have hk : List.replicate k '\r' = List.replicate j '\r' ++ List.replicate (k - j) '\r' := by
    rw [List.replicate_append_replicate, Nat.add_sub_cancel' (by omega)]
  rw [hk, ← byteLength_append_returns, List.append_assoc, ← List.append_assoc]
  exact Utf8.not_insideChar_of_split

/-- The carets of the snippet with the spaces in front of them. -/
def marks (s : Snippet) : List Char := List.replicate s.indent ' ' ++ List.replicate s.carets '^'

/-- The character `i` of the line behind `front` starts within the bytes. -/
def Covers (front line : List Char) (start stop i : Nat) : Prop :=
  i < line.length ∧ start ≤ byteLength front + byteLength (line.take i) ∧
    byteLength front + byteLength (line.take i) < stop

/-- The snippet shows the line behind `front` without its carriage returns and marks the bytes from
`start` to `stop`: the characters that start there, or else the place of `start`. -/
structure Underlines (s : Snippet) (front line : List Char) (start stop : Nat) : Prop where
  shown : ∃ k, line = s.text ++ List.replicate k '\r'
  shown_end : s.text.getLast? ≠ some '\r'
  under : (∃ i, Covers front s.text start stop i) →
    ∀ i, s.marks[i]? = some '^' ↔ Covers front s.text start stop i
  bare : (∀ i, ¬Covers front s.text start stop i) →
    ∃ head, head <+: line ∧ byteLength front + byteLength head = start ∧
      s.marks = List.replicate head.length ' ' ++ ['^']

/-- A caret stands at the characters from the indent on. -/
theorem marks_getElem? {s : Snippet} {i : Nat} :
    s.marks[i]? = some '^' ↔ s.indent ≤ i ∧ i < s.indent + s.carets := by
  rw [marks, List.getElem?_append, List.length_replicate]
  split <;> rw [List.getElem?_replicate] <;> split <;> simp <;> omega

/-- A snippet that marks the characters of a span underlines the bytes if the bytes cover just
these. -/
theorem underlines_of_span {front line head text : List Char} {number start stop caretEnd k : Nat}
    (hline : line = text ++ List.replicate k '\r') (hend : text.getLast? ≠ some '\r')
    (hhead : head <+: line) (hstart : byteLength front + byteLength head = start)
    (hspan : ∀ i, Covers front text start stop i ↔ head.length ≤ i ∧ i < caretEnd) :
    Underlines ⟨number, text, head.length, max 1 (caretEnd - head.length)⟩ front line start
      stop where
  shown := ⟨k, hline⟩
  shown_end := hend
  under := by
    rintro ⟨j, hj⟩ i
    have := (hspan j).1 hj
    rw [marks_getElem?, hspan]
    dsimp only
    omega
  bare := by
    intro hnone
    have hempty : caretEnd ≤ head.length :=
      Nat.le_of_not_lt fun h => hnone head.length ((hspan _).2 ⟨Nat.le_refl _, h⟩)
    refine ⟨head, hhead, hstart, ?_⟩
    simp [marks, Nat.sub_eq_zero_of_le hempty]

/-- Where the line is known, the carets end at the stop, or at the end of the line. -/
theorem covers_iff {front head after text cut : List Char} {start stop : Nat}
    (hstart : byteLength front + byteLength head = start)
    (htext : text <+: head ++ after) (hcut : cut <+: head ++ after)
    (hstop : byteLength front + byteLength text < stop ∧ cut = text ∨
      stop ≤ byteLength front + byteLength text ∧
        byteLength front + byteLength cut = max stop start) (i : Nat) :
    Covers front text start stop i ↔ head.length ≤ i ∧ i < cut.length := by
  have hhead : head <+: head ++ after := ⟨after, rfl⟩
  have htake : text.take i <+: head ++ after := (List.take_prefix i text).trans htext
  have hfrom : byteLength head ≤ byteLength (text.take i) ↔ head.length ≤ (text.take i).length :=
    Utf8.byteLength_le_iff hhead htake
  have hto : byteLength cut ≤ byteLength (text.take i) ↔ cut.length ≤ (text.take i).length :=
    Utf8.byteLength_le_iff hcut htake
  have hwithin : byteLength (text.take i) ≤ byteLength text :=
    (Utf8.byteLength_le_iff htake htext).2 (List.take_prefix i text).length_le
  constructor
  · rintro ⟨hi, hge, hlt⟩
    rw [List.length_take, Nat.min_eq_left (by omega)] at hfrom hto
    obtain ⟨-, rfl⟩ | ⟨-, hcut⟩ := hstop <;> omega
  · rintro ⟨hge, hlt⟩
    -- a cut behind the head is at the stop, and so within the line
    have hcovers : byteLength head < byteLength cut := by
      have := (Utf8.byteLength_le_iff hcut hhead).not
      omega
    have hcut_le : byteLength cut ≤ byteLength text := by
      obtain ⟨-, rfl⟩ | ⟨hle, hcut⟩ := hstop <;> omega
    have hi := (Utf8.byteLength_le_iff hcut htext).1 hcut_le
    rw [List.length_take, Nat.min_eq_left (by omega)] at hfrom hto
    refine ⟨by omega, by omega, ?_⟩
    obtain ⟨hlt, -⟩ | ⟨-, hcut⟩ := hstop <;> omega

/-- There is no line to show for the subject, or no end to mark on it: the start is past the text
or inside a character, or the stop is inside one on the same line. -/
def Unplaceable (text : List Char) (subject : SourceRange) : Prop :=
  byteLength text < subject.start.byte.toNat ∨ InsideChar text subject.start.byte.toNat ∨
    (subject.start.byte.toNat < subject.stop.byte.toNat ∧ InsideChar text subject.stop.byte.toNat ∧
      ∃ front line back, LineAt text subject.start.byte.toNat front line back ∧
        subject.stop.byte.toNat ≤ byteLength front + byteLength line)

/-- The snippet is the line of the subject's start, underlined from there to the subject's stop. -/
def IsOf (s : Snippet) (text : List Char) (subject : SourceRange) : Prop :=
  ∃ front line back, LineAt text subject.start.byte.toNat front line back ∧
    s.lineNumber = subject.start.line.toNat ∧
    s.Underlines front line subject.start.byte.toNat subject.stop.byte.toNat

/-- The offset of the line is that of the text in front of it. -/
theorem locate?_eq {before after front shown : List Char} {subject : SourceRange}
    (hbefore : before = front ++ lastLine before)
    (hstart : byteLength before = subject.start.byte.toNat)
    (hshown : dropReturns (lastLine before ++ after.takeWhile (· ≠ '\n')) = shown) :
    locate? (before ++ after) subject =
      (if subject.stop.byte.toNat ≤ byteLength front + byteLength shown then
        (splitAtByte? (max subject.stop.byte.toNat subject.start.byte.toNat - byteLength front)
          (lastLine before ++ after)).map (·.1.length)
      else some shown.length).map fun caretEnd =>
        ⟨subject.start.line.toNat, shown, (lastLine before).length,
          max 1 (caretEnd - (lastLine before).length)⟩ := by
  have hfront : subject.start.byte.toNat - byteLength (lastLine before) = byteLength front := by
    have := congrArg byteLength hbefore
    rw [Utf8.byteLength_append] at this
    omega
  have hsplit : splitAtByte? subject.start.byte.toNat (before ++ after) = some (before, after) :=
    splitAtByte?_eq_some.2 ⟨rfl, hstart⟩
  simp only [locate?, hsplit, hshown, hfront, Option.bind_eq_bind, Option.bind_some,
    Option.map_eq_bind]
  split <;> rfl

/-- The text around the subject's start: its line is `shown` with `k` carriage returns, and `head`
is what the line has in front of the start. -/
structure StartsIn (text : List Char) (subject : SourceRange)
    (front head after shown back : List Char) (k : Nat) : Prop where
  line : LineAt text subject.start.byte.toNat front (shown ++ List.replicate k '\r') back
  shown_end : shown.getLast? ≠ some '\r'
  head_prefix : head <+: shown ++ List.replicate k '\r'
  split : text = front ++ (head ++ after)
  start : byteLength front + byteLength head = subject.start.byte.toNat

theorem startsIn_lastLine {before after front : List Char} {subject : SourceRange}
    (hbefore : before = front ++ lastLine before)
    (hstart : byteLength before = subject.start.byte.toNat)
    (hline : LineAt (before ++ after) (byteLength before) front
      (lastLine before ++ after.takeWhile (· ≠ '\n')) (after.dropWhile (· ≠ '\n'))) :
    ∃ k, StartsIn (before ++ after) subject front (lastLine before) after
      (dropReturns (lastLine before ++ after.takeWhile (· ≠ '\n')))
      (after.dropWhile (· ≠ '\n')) k := by
  obtain ⟨k, hk, hend⟩ := dropReturns_split (lastLine before ++ after.takeWhile (· ≠ '\n'))
  refine ⟨k, by rw [← hk, ← hstart]; exact hline, hend, by rw [← hk]; exact ⟨_, rfl⟩, ?_, ?_⟩
  · rw [← List.append_assoc, ← hbefore]
  · rw [← hstart, ← Utf8.byteLength_append, ← hbefore]

namespace StartsIn

variable {text front head after shown back cut rest : List Char} {subject : SourceRange} {k : Nat}

theorem rest_eq (h : StartsIn text subject front head after shown back k) :
    head ++ after = shown ++ (List.replicate k '\r' ++ back) := by
  have := h.split.symm.trans h.line.whole
  rwa [List.append_cancel_left_eq, List.append_assoc] at this

/-- The stop alone decides whether there is something to show. -/
theorem unplaceable_iff (h : StartsIn text subject front head after shown back k) :
    Unplaceable text subject ↔
      subject.start.byte.toNat < subject.stop.byte.toNat ∧
        InsideChar text subject.stop.byte.toNat ∧
          subject.stop.byte.toNat ≤ byteLength front + byteLength shown + k := by
  have hlength := byteLength_append_returns shown k
  constructor
  · rintro (hpast | hinside | ⟨hlt, hinside, front', line', back', hline', hstop⟩)
    · have := congrArg byteLength h.split
      rw [Utf8.byteLength_append, Utf8.byteLength_append] at this
      have := h.start
      omega
    · rw [h.split, ← h.start, ← Utf8.byteLength_append, ← List.append_assoc] at hinside
      exact absurd hinside Utf8.not_insideChar_of_split
    · obtain ⟨rfl, rfl, -⟩ := h.line.unique hline'
      exact ⟨hlt, hinside, by omega⟩
  · rintro ⟨hlt, hinside, hstop⟩
    exact .inr (.inr ⟨hlt, hinside, _, _, _, h.line, by omega⟩)

theorem isOf (h : StartsIn text subject front head after shown back k)
    (hcut : cut <+: head ++ after)
    (hstop : byteLength front + byteLength shown < subject.stop.byte.toNat ∧ cut = shown ∨
      subject.stop.byte.toNat ≤ byteLength front + byteLength shown ∧
        byteLength front + byteLength cut = max subject.stop.byte.toNat subject.start.byte.toNat) :
    IsOf ⟨subject.start.line.toNat, shown, head.length, max 1 (cut.length - head.length)⟩
      text subject :=
  ⟨front, _, back, h.line, rfl, underlines_of_span rfl h.shown_end h.head_prefix h.start
    (covers_iff h.start ⟨_, h.rest_eq.symm⟩ hcut hstop)⟩

/-- A stop on the line that cannot be cut at is inside a character. -/
theorem unplaceable_of_uncut (h : StartsIn text subject front head after shown back k)
    (hle : subject.stop.byte.toNat ≤ byteLength front + byteLength shown)
    (hcut : splitAtByte? (max subject.stop.byte.toNat subject.start.byte.toNat - byteLength front)
      (head ++ after) = none) : Unplaceable text subject := by
  have hstart := h.start
  have hwhole := congrArg byteLength h.rest_eq
  rw [Utf8.byteLength_append, Utf8.byteLength_append] at hwhole
  rw [h.unplaceable_iff]
  obtain hpast | hinside := splitAtByte?_eq_none hcut
  · rw [Utf8.byteLength_append] at hpast
    omega
  obtain hlt | hback := Nat.lt_or_ge subject.start.byte.toNat subject.stop.byte.toNat
  · have := hinside.append_left front
    rw [Nat.max_eq_left hlt.le, Nat.add_sub_cancel' (by omega), ← h.split] at this
    exact ⟨hlt, this, by omega⟩
  · -- the head ends there
    rw [Nat.max_eq_right hback, ← hstart, Nat.add_sub_cancel_left] at hinside
    exact absurd hinside Utf8.not_insideChar_of_split

theorem not_unplaceable_of_cut (h : StartsIn text subject front head after shown back k)
    (hcut : head ++ after = cut ++ rest)
    (hstop : byteLength front + byteLength cut =
      max subject.stop.byte.toNat subject.start.byte.toNat) : ¬Unplaceable text subject := by
  rw [h.unplaceable_iff]
  rintro ⟨hlt, hinside, -⟩
  rw [Nat.max_eq_left hlt.le, ← Utf8.byteLength_append] at hstop
  rw [h.split, hcut, ← hstop, ← List.append_assoc] at hinside
  exact Utf8.not_insideChar_of_split hinside

/-- A stop behind what is shown is among the carriage returns or on a later line. -/
theorem not_unplaceable_of_past (h : StartsIn text subject front head after shown back k)
    (hgt : byteLength front + byteLength shown < subject.stop.byte.toNat) :
    ¬Unplaceable text subject := by
  rw [h.unplaceable_iff]
  rintro ⟨-, hinside, hle⟩
  rw [h.split, h.rest_eq, ← List.append_assoc] at hinside
  refine not_insideChar_returns ?_ ?_ hinside <;>
    rw [Utf8.byteLength_append] <;> omega

end StartsIn

/-- The line that is looked up is the one around the start, and it is shown unless the stop cannot
be placed on it. -/
theorem locate?_of_split {before after : List Char} {subject : SourceRange}
    (hstart : byteLength before = subject.start.byte.toNat) :
    (Unplaceable (before ++ after) subject ∧ locate? (before ++ after) subject = none) ∨
      (¬Unplaceable (before ++ after) subject ∧
        ∃ s, locate? (before ++ after) subject = some s ∧ s.IsOf (before ++ after) subject) := by
  obtain ⟨front, hbefore, hline⟩ := lineAt_lastLine before after
  obtain ⟨k, h⟩ := startsIn_lastLine hbefore hstart hline
  rw [locate?_eq hbefore hstart rfl]
  generalize dropReturns (lastLine before ++ after.takeWhile (· ≠ '\n')) = shown at *
  split
  next hle =>
    cases hcut : splitAtByte?
        (max subject.stop.byte.toNat subject.start.byte.toNat - byteLength front)
        (lastLine before ++ after) with
    | none => exact .inl ⟨h.unplaceable_of_uncut hle hcut, rfl⟩
    | some cut =>
      obtain ⟨hsplit, hlength⟩ := splitAtByte?_eq_some.1 hcut
      have hstop : byteLength front + byteLength cut.1 =
          max subject.stop.byte.toNat subject.start.byte.toNat := by
        have := h.start
        omega
      exact .inr ⟨h.not_unplaceable_of_cut hsplit hstop, _, rfl,
        h.isOf ⟨_, hsplit.symm⟩ (.inr ⟨hle, hstop⟩)⟩
  next hgt =>
    have hpast := Nat.lt_of_not_le hgt
    exact .inr ⟨h.not_unplaceable_of_past hpast, _, rfl,
      h.isOf ⟨_, h.rest_eq.symm⟩ (.inl ⟨hpast, rfl⟩)⟩

theorem locate?_spec (text : List Char) (subject : SourceRange) :
    (Unplaceable text subject ∧ locate? text subject = none) ∨
      (¬Unplaceable text subject ∧ ∃ s, locate? text subject = some s ∧ s.IsOf text subject) := by
  cases hsplit : splitAtByte? subject.start.byte.toNat text with
  | none =>
    left
    refine ⟨(splitAtByte?_eq_none hsplit).imp_right .inl, ?_⟩
    simp only [locate?, hsplit, Option.bind_eq_bind, Option.bind_none]
  | some cut =>
    obtain ⟨rfl, hstart⟩ := splitAtByte?_eq_some.1 hsplit
    exact locate?_of_split hstart

/-- The accented letter is two bytes and one place; the stop past the line is at its end. -/
example : locate? "a = 1\né = qq\r\nb = 2\n".toList ⟨"", ⟨2, 5, 11⟩, ⟨3, 2, 16⟩⟩ =
    some ⟨2, "é = qq".toList, 4, 2⟩ := by
  decide

end Snippet

namespace Report

/-- The report has the snippet in front of the detail: the text of the line, and the marks on the
next line below it, behind gutters of one width. -/
def Shows (r : Report) (d : Diagnostic) (s : Snippet) : Prop :=
  ∃ head tail number blank : String,
    number = toString s.lineNumber ∧ blank.length = number.length ∧
    { r with source := none }.diagnostic d = head ++ tail ∧
    r.diagnostic d = head ++
      (r.paint blue (blank ++ " |") ++ "\n" ++
        r.paint blue (number ++ " |") ++ " " ++ String.ofList s.text ++ "\n" ++
        r.paint blue (blank ++ " |") ++ " " ++
          r.paint (severityColor d.severity) (String.ofList s.marks) ++ "\n") ++ tail

/-- Only the lines of the snippet depend on the source. -/
theorem exists_diagnostic_eq (colored : Bool) (d : Diagnostic) :
    ∃ head tail, ∀ source : Option String, diagnostic ⟨colored, source⟩ d =
      head ++ (match source.bind fun s => Snippet.locate? s.toList d.subject with
        | some s => snippet ⟨colored, none⟩ d.severity s
        | none => "") ++ tail := by
  let r : Report := ⟨colored, none⟩
  refine ⟨r.paint (severityColor d.severity) d.severity.text ++
      r.paint bold ("[" ++ d.code.text ++ "]") ++ ": " ++ d.summary ++ "\n  --> " ++
      d.subject.toText ++ "\n",
    (if d.detail.isEmpty then "" else "  = " ++ d.detail ++ "\n") ++ "\n", fun source => ?_⟩
  rw [diagnostic, ← String.append_assoc]
  rfl

theorem shows_of_locate? {colored : Bool} {source : String} {d : Diagnostic} {s : Snippet}
    (h : Snippet.locate? source.toList d.subject = some s) :
    Shows ⟨colored, some source⟩ d s := by
  obtain ⟨head, tail, hdiagnostic⟩ := exists_diagnostic_eq colored d
  refine ⟨head, tail, toString s.lineNumber, repeated (toString s.lineNumber).length ' ', rfl,
    ?_, ?_, ?_⟩
  · rw [repeated, String.length_ofList, List.length_replicate]
  · rw [hdiagnostic, Option.bind_none, String.append_empty]
  · rw [hdiagnostic, Option.bind_some, h, Snippet.marks, String.ofList_append]
    rfl

end Report

end HclSyntax
