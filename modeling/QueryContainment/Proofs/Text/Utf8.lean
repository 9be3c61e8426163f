import Mathlib.Data.List.Basic
import QueryContainment.Text.Utf8

namespace QueryContainment.Text

theorem bytes_toList (b : ByteArray) : b.toList = b.data.toList := by
  have hloop (i : Nat) (l : List UInt8) :
      ByteArray.toList.loop b i l = l.reverse ++ b.data.toList.drop i := by
    fun_induction ByteArray.toList.loop b i l with
    | case1 i l h ih =>
      have hi : i < b.data.toList.length := h
      rw [ih, List.drop_eq_getElem_cons hi]
      simp [ByteArray.get!, h]
    | case2 i l h =>
      have hi : b.data.toList.length ≤ i := Nat.not_lt.1 h
      rw [List.drop_eq_nil_of_le hi, List.append_nil]
  exact hloop 0 []

theorem encode_eq (s : String) : encode s = s.toList.flatMap String.utf8EncodeChar := by
  rw [encode, bytes_toList, String.toUTF8, ← String.utf8Encode_toList, List.utf8Encode,
    List.data_toByteArray, List.toList_toArray]

variable {q : Unfinished} {b : UInt8} {v value missing low high : Nat}

theorem decodeAfter_whole (h : b.toNat < 0x80) (rest : Bytes) :
    decodeAfter none (b :: rest) = Char.ofNat b.toNat :: decodeAfter none rest := by
  simp [decodeAfter, firstByte, h]

theorem decodeAfter_part (h : firstByte b.toNat = .part q) (rest : Bytes) :
    decodeAfter none (b :: rest) = decodeAfter (some q) rest := by
  simp [decodeAfter, h]

theorem toNat_continuation (v : Nat) : (UInt8.ofNat (v % 64 + 128)).toNat = v % 64 + 128 := by
  rw [UInt8.toNat_ofNat']
  omega

theorem decodeAfter_more (hb : b.toNat = v % 64 + 128) (hlow : low ≤ v % 64 + 128)
    (hhigh : v % 64 + 128 ≤ high) (rest : Bytes) :
    decodeAfter (some ⟨value, missing + 2, low, high⟩) (b :: rest) =
      decodeAfter (some ⟨value * 64 + v % 64, missing + 1, 0x80, 0xbf⟩) rest := by
  simp [decodeAfter, hb, hlow, hhigh]

theorem decodeAfter_last (hb : b.toNat = v % 64 + 128) (hlow : low ≤ v % 64 + 128)
    (hhigh : v % 64 + 128 ≤ high) (rest : Bytes) :
    decodeAfter (some ⟨value, 1, low, high⟩) (b :: rest) =
      Char.ofNat (value * 64 + v % 64) :: decodeAfter none rest := by
  simp [decodeAfter, hb, hlow, hhigh]

theorem firstByte_of_two (hlow : 0x7f < v) (hhigh : v ≤ 0x7ff) :
    firstByte (UInt8.ofNat (v / 64 % 32 + 192)).toNat = .part ⟨v / 64, 1, 0x80, 0xbf⟩ := by
  have hbyte : (UInt8.ofNat (v / 64 % 32 + 192)).toNat = v / 64 + 0xc0 := by
    rw [UInt8.toNat_ofNat']
    omega
  rw [hbyte, firstByte, if_neg (by omega), if_pos (by omega), Nat.add_sub_cancel]

theorem firstByte_of_three (hlow : 0x7ff < v) (hhigh : v ≤ 0xffff)
    (hvalid : v < 0xd800 ∨ 0xdfff < v) : ∃ low high,
      firstByte (UInt8.ofNat (v / 4096 % 16 + 224)).toNat = .part ⟨v / 4096, 2, low, high⟩ ∧
        low ≤ v / 64 % 64 + 128 ∧ v / 64 % 64 + 128 ≤ high := by
  have hbyte : (UInt8.ofNat (v / 4096 % 16 + 224)).toNat = v / 4096 + 0xe0 := by
    rw [UInt8.toNat_ofNat']
    omega
  rw [hbyte, firstByte, if_neg (by omega), if_neg (by omega)]
  by_cases hfirst : v / 4096 = 0
  · exact ⟨0xa0, 0xbf, by simp [hfirst], by omega, by omega⟩
  by_cases hsurrogate : v / 4096 = 0xd
  · exact ⟨0x80, 0x9f, by simp [hsurrogate], by omega, by omega⟩
  refine ⟨0x80, 0xbf, ?_, by omega, by omega⟩
  rw [if_neg (by omega), if_neg (by omega), if_pos (by omega), Nat.add_sub_cancel]

theorem firstByte_of_four (hlow : 0xffff < v) (hhigh : v < 0x110000) : ∃ low high,
    firstByte (UInt8.ofNat (v / 262144 % 8 + 240)).toNat = .part ⟨v / 262144, 3, low, high⟩ ∧
      low ≤ v / 4096 % 64 + 128 ∧ v / 4096 % 64 + 128 ≤ high := by
  have hbyte : (UInt8.ofNat (v / 262144 % 8 + 240)).toNat = v / 262144 + 0xf0 := by
    rw [UInt8.toNat_ofNat']
    omega
  rw [hbyte, firstByte, if_neg (by omega), if_neg (by omega), if_neg (by omega),
    if_neg (by omega), if_neg (by omega)]
  by_cases hfirst : v / 262144 = 0
  · exact ⟨0x90, 0xbf, by simp [hfirst], by omega, by omega⟩
  by_cases hlast : v / 262144 = 4
  · exact ⟨0x80, 0x8f, by simp [hlast], by omega, by omega⟩
  refine ⟨0x80, 0xbf, ?_, by omega, by omega⟩
  rw [if_neg (by omega), if_pos (by omega), Nat.add_sub_cancel]

theorem decodeAfter_char (c : Char) (rest : Bytes) :
    decodeAfter none (String.utf8EncodeChar c ++ rest) = c :: decodeAfter none rest := by
  have hvalid : c.val.toNat < 0xd800 ∨ 0xdfff < c.val.toNat ∧ c.val.toNat < 0x110000 := c.valid
  have hc : c = Char.ofNat c.val.toNat := (Char.ofNat_toNat c).symm
  simp only [String.utf8EncodeChar]
  generalize c.val.toNat = v at *
  rw [hc]
  by_cases h1 : v ≤ 127
  · have hbyte : (UInt8.ofNat v).toNat = v := by
      rw [UInt8.toNat_ofNat']
      omega
    rw [if_pos h1, List.singleton_append, decodeAfter_whole (by omega), hbyte]
  by_cases h2 : v ≤ 2047
  · have hvalue : v / 64 * 64 + v % 64 = v := by omega
    rw [if_neg h1, if_pos h2, List.cons_append, List.singleton_append,
      decodeAfter_part (firstByte_of_two (by omega) h2),
      decodeAfter_last (toNat_continuation v) (by omega) (by omega), hvalue]
  by_cases h3 : v ≤ 65535
  · have hvalue : (v / 4096 * 64 + v / 64 % 64) * 64 + v % 64 = v := by omega
    obtain ⟨low, high, hfirst, hlow, hhigh⟩ :=
      firstByte_of_three (by omega) h3 (hvalid.imp_right And.left)
    rw [if_neg h1, if_neg h2, if_pos h3, List.cons_append, List.cons_append,
      List.singleton_append, decodeAfter_part hfirst,
      decodeAfter_more (toNat_continuation _) hlow hhigh,
      decodeAfter_last (toNat_continuation v) (by omega) (by omega), hvalue]
  · have hvalue : ((v / 262144 * 64 + v / 4096 % 64) * 64 + v / 64 % 64) * 64 + v % 64 = v := by
      omega
    obtain ⟨low, high, hfirst, hlow, hhigh⟩ := firstByte_of_four (v := v) (by omega) (by omega)
    rw [if_neg h1, if_neg h2, if_neg h3, List.cons_append, List.cons_append, List.cons_append,
      List.singleton_append, decodeAfter_part hfirst,
      decodeAfter_more (toNat_continuation _) hlow hhigh,
      decodeAfter_more (toNat_continuation _) (by omega) (by omega),
      decodeAfter_last (toNat_continuation v) (by omega) (by omega), hvalue]

/-- What is written is read again. -/
theorem decode_encode (s : String) : decode (encode s) = s := by
  have hchars (cs : List Char) : decodeAfter none (cs.flatMap String.utf8EncodeChar) = cs := by
    induction cs with
    | nil => rfl
    | cons c cs ih => rw [List.flatMap_cons, decodeAfter_char, ih]
  rw [decode, encode_eq, hchars, String.ofList_toList]

end QueryContainment.Text
