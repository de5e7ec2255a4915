import Mathlib.Algebra.Group.Nat.Defs
import HclSyntax.Token

namespace HclSyntax

namespace Utf8

theorem toList_loop (bytes : ByteArray) (i : Nat) (done : List UInt8) :
    ByteArray.toList.loop bytes i done = done.reverse ++ bytes.data.toList.drop i := by
  rw [ByteArray.toList.loop.eq_def]
  split
  · rename_i hi
    have hi : i < bytes.data.toList.length := hi
    have hget : bytes.get! i = bytes.data.toList[i] := getElem!_pos bytes.data i hi
    rw [toList_loop bytes (i + 1), hget, List.drop_eq_getElem_cons hi, List.reverse_cons,
      List.append_assoc, List.singleton_append]
  · rename_i hi
    rw [List.drop_eq_nil_of_le (Nat.le_of_not_lt hi), List.append_nil]
termination_by bytes.size - i

theorem encode_ofList (text : List Char) :
    encode (String.ofList text) = text.flatMap String.utf8EncodeChar := by
  rw [encode, ByteArray.toList, toList_loop, String.toUTF8_eq_toByteArray,
    String.toByteArray_ofList, List.utf8Encode, List.data_toByteArray]
  rfl

/-- The low bits of a byte that a mask keeps. -/
theorem toNat_ofNat_and {n k : Nat} (mask : UInt8) (hm : mask.toNat = 2 ^ k - 1) (hk : k ≤ 8) :
    (UInt8.ofNat n &&& mask).toNat = n % 2 ^ k := by
  rw [UInt8.toNat_and, hm, Nat.and_two_pow_sub_one_eq_mod, UInt8.toNat_ofNat',
    Nat.mod_mod_of_dvd _ (Nat.pow_dvd_pow 2 hk)]

theorem lead?_one {n : Nat} (h : n < 128) :
    lead? (.ofNat n) = some ⟨n, 0, 0x80, 0xBF⟩ := by
  revert n
  decide

theorem lead?_two {n : Nat} (h : n < 32) (hn : 2 ≤ n) :
    lead? (.ofNat (n + 192)) = some ⟨n, 1, 0x80, 0xBF⟩ := by
  revert n
  decide

theorem lead?_three {n : Nat} (h : n < 16) : lead? (.ofNat (n + 224)) =
    some ⟨n, 2, if n = 0 then 0xA0 else 0x80, if n = 13 then 0x9F else 0xBF⟩ := by
  revert n
  decide

theorem lead?_four {n : Nat} (h : n < 5) : lead? (.ofNat (n + 240)) =
    some ⟨n, 3, if n = 0 then 0x90 else 0x80, if n = 4 then 0x8F else 0xBF⟩ := by
  revert n
  decide

variable {bits count m : Nat} {least greatest : UInt8} {bytes : List UInt8}

/-- A byte that goes on with a character, within the bounds that are left for it. -/
theorem next_tail (hm : m < 64) (hl : least.toNat ≤ m + 128) (hg : m + 128 ≤ greatest.toNat) :
    Step.next (.inside bits count least greatest) (.ofNat (m + 128)) =
      match count with
      | 0 => ([Char.ofNat (bits * 64 + m)], .boundary)
      | count + 1 => ([], .inside (bits * 64 + m) count 0x80 0xBF) := by
  have hb : (UInt8.ofNat (m + 128)).toNat = m + 128 := by
    rw [UInt8.toNat_ofNat']
    omega
  have hle : least ≤ UInt8.ofNat (m + 128) ∧ UInt8.ofNat (m + 128) ≤ greatest := by
    rw [UInt8.le_iff_toNat_le, UInt8.le_iff_toNat_le, hb]
    exact ⟨hl, hg⟩
  have hand : (UInt8.ofNat (m + 128) &&& 0x3F).toNat = m := by
    rw [toNat_ofNat_and 0x3F (k := 6) rfl (by omega)]
    omega
  cases count <;> simp only [Step.next, hle, decide_true, Bool.and_self, if_true, hand]

theorem decodeFrom_lead {b : UInt8} (h : lead? b = some ⟨bits, count + 1, least, greatest⟩) :
    decodeFrom .boundary (b :: bytes) = decodeFrom (.inside bits count least greatest) bytes := by
  simp only [decodeFrom, Step.next, start, h, List.nil_append]

theorem decodeFrom_tail (hm : m < 64) (hl : least.toNat ≤ m + 128) (hg : m + 128 ≤ greatest.toNat) :
    decodeFrom (.inside bits (count + 1) least greatest) (.ofNat (m + 128) :: bytes) =
      decodeFrom (.inside (bits * 64 + m) count 0x80 0xBF) bytes := by
  simp only [decodeFrom, next_tail hm hl hg, List.nil_append]

theorem decodeFrom_last (hm : m < 64) (hl : least.toNat ≤ m + 128) (hg : m + 128 ≤ greatest.toNat) :
    decodeFrom (.inside bits 0 least greatest) (.ofNat (m + 128) :: bytes) =
      Char.ofNat (bits * 64 + m) :: decodeFrom .boundary bytes := by
  simp only [decodeFrom, next_tail hm hl hg, List.singleton_append]

theorem decodeFrom_char (c : Char) (bytes : List UInt8) :
    decodeFrom .boundary (String.utf8EncodeChar c ++ bytes) = c :: decodeFrom .boundary bytes := by
  have hc : Char.ofNat c.val.toNat = c := Char.ofNat_toNat c
  have hvalid : c.val.toNat < 0xD800 ∨ 0xDFFF < c.val.toNat ∧ c.val.toNat < 0x110000 := c.valid
  have hlow : (0x80 : UInt8).toNat = 128 := rfl
  have hhigh : (0xBF : UInt8).toNat = 191 := rfl
  rw [String.utf8EncodeChar]
  generalize c.val.toNat = v at hc hvalid
  split
  · have hlead := lead?_one (n := v) (by omega)
    simp only [List.singleton_append, decodeFrom, Step.next, start, hlead, hc]
  split
  · have hv : v / 64 % 32 * 64 + v % 64 = v := by omega
    rw [List.cons_append, decodeFrom_lead (lead?_two (by omega) (by omega)), List.singleton_append,
      decodeFrom_last (by omega) (by omega) (by omega), hv, hc]
  split
  · have hv : (v / 4096 % 16 * 64 + v / 64 % 64) * 64 + v % 64 = v := by omega
    rw [List.cons_append, decodeFrom_lead (lead?_three (by omega)), List.cons_append,
      decodeFrom_tail (by omega) ?_ ?_, List.singleton_append,
      decodeFrom_last (by omega) (by omega) (by omega), hv, hc]
    · split
      · change 160 ≤ _
        omega
      · omega
    · -- the surrogates would come after `0xED`
      split
      · change _ ≤ 159
        omega
      · omega
  · have hv : ((v / 262144 % 8 * 64 + v / 4096 % 64) * 64 + v / 64 % 64) * 64 + v % 64 = v := by
      omega
    rw [List.cons_append, decodeFrom_lead (lead?_four (by omega)), List.cons_append,
      decodeFrom_tail (by omega) ?_ ?_, List.cons_append,
      decodeFrom_tail (by omega) (by omega) (by omega), List.singleton_append,
      decodeFrom_last (by omega) (by omega) (by omega), hv, hc]
    · split
      · change 144 ≤ _
        omega
      · omega
    · split
      · change _ ≤ 143
        omega
      · omega

theorem decode_encode (text : String) : decode (encode text) = text.toList := by
  have h (cs : List Char) : decode (cs.flatMap String.utf8EncodeChar) = cs := by
    induction cs with
    | nil => rfl
    | cons c cs ih =>
      rw [List.flatMap_cons, decode, decodeFrom_char]
      exact congrArg _ ih
  rw [← String.ofList_toList (s := text), encode_ofList, h, String.toList_ofList]

theorem encode_append (a b : List Char) :
    encode (String.ofList (a ++ b)) = encode (String.ofList a) ++ encode (String.ofList b) := by
  rw [encode_ofList, encode_ofList, encode_ofList, List.flatMap_append]

theorem length_encode (text : List Char) :
    (encode (String.ofList text)).length = byteLength text := by
  rw [encode_ofList]
  induction text with
  | nil => rfl
  | cons c text ih =>
    rw [List.flatMap_cons, List.length_append, String.length_utf8EncodeChar, ih, byteLength]

@[simp] theorem byteLength_append (a b : List Char) :
    byteLength (a ++ b) = byteLength a + byteLength b := by
  induction a with
  | nil => simp [byteLength]
  | cons c a ih => rw [List.cons_append, byteLength, ih, byteLength, Nat.add_assoc]

/-- The bytes are those of a text. -/
def Valid (bytes : List UInt8) : Prop := ∃ text : String, bytes = encode text

/-- Nothing is replaced in the text of such bytes. -/
theorem Valid.encode_decode {bytes : List UInt8} (h : Valid bytes) :
    encode (String.ofList (decode bytes)) = bytes := by
  obtain ⟨text, rfl⟩ := h
  rw [decode_encode, String.ofList_toList]

instance (bytes : List UInt8) : Decidable (Valid bytes) :=
  decidable_of_iff (encode (String.ofList (decode bytes)) = bytes)
    ⟨fun h => ⟨_, h.symm⟩, Valid.encode_decode⟩

end Utf8

theorem Token.text_of_isKeyword {t : Token} {keyword : String} (h : t.isKeyword keyword) :
    t.text = keyword := by
  simp only [isKeyword, Bool.and_eq_true, beq_iff_eq] at h
  rw [text, chars, h.2, Utf8.decode_encode, String.ofList_toList]

end HclSyntax
