/-
  Codec/Conversion.lean --- bit strings to bytes and back, for every length.

  `bytes2string` and `string2bytes` count bits in an `int`.  Up to 2^31 - 2 bits
  the two are inverse to each other as documented; `bytes2string` of 2^31 - 1
  bits adds one to `INT_MAX` for the terminating NUL, and the length of a longer
  string does not survive the conversion to `int`.  The main result says that
  nothing else goes wrong.
-/
import IrBridge.Codec.Bitops
import Mathlib.Data.List.TakeDrop

set_option autoImplicit false

namespace IrBridge.Codec

open IrBridge.Foundation
open IrBridge.Platform

/-! ## What the conversions are for -/

/-- Bytes that `n` bits need. -/
def bytesFor (n : Nat) : Nat := (n + 7) / 8

/-- The bytes that the first `n` bits of `bytes` lie in, with the low bits of the
last one beyond bit `n` cleared. -/
def leadingBytes (bytes : List Byte) (n : Nat) : List Byte :=
  (bytes.take (bytesFor n)).modify (bytesFor n - 1)
    (· &&& (BitVec.allOnes 8 <<< (8 * bytesFor n - n)))

/-- `bytes2string(B, n)` is a string of `n` bit characters, which
`string2bytes` turns into the bytes it came from. -/
def BytesConvert (bytes : List Byte) (n : Nat) : Prop :=
  ∃ s : CString,
    bytes2string bytes (toInt n) = .ok (some s) ∧
    s.strlen = n ∧
    (∀ c ∈ s.chars, c = '0' ∨ c = '1') ∧
    string2bytes s = ⟨some (leadingBytes bytes n), bytesFor n⟩ ∧
    (leadingBytes bytes n).length = bytesFor n

/-- The sum that the turn of the loop at the character `c` stores in `data`. -/
def partialSum (f : Filling) (c : Char) : Nat :=
  f.data.toNat + if c = '1' then 1 <<< (f.b - 1) else 0

/-- `string2bytes(s)` stores as many bytes as it allocates and returns, no sum
outgrows a byte on the way, and `bytes2string` of them is `s` with every
character other than `'1'` replaced by `'0'`. -/
def StringConverts (s : CString) : Prop :=
  ∃ bytes : List Byte,
    string2bytes s = ⟨some bytes, bytesFor s.strlen⟩ ∧
    bytes.length = bytesFor s.strlen ∧
    (∀ done c rest, s.chars = done ++ c :: rest →
      partialSum (done.foldl fillStep ⟨0#8, 8, []⟩) c ≤ 255) ∧
    ∃ t : CString,
      bytes2string bytes (toInt s.strlen) = .ok (some t) ∧
      t.chars = s.chars.map fun c => if c = '1' then '1' else '0'

/-! ## Lengths an `int` holds -/

/-- The two ways of saying which bits of the last byte are cleared. -/
theorem mapIdx_eq_leadingBytes {bytes : List Byte} {n : Nat} (hpos : 0 < n) :
    ((bytes.take (BitPacking.wordCount 8 n)).mapIdx
      fun j d => d &&& (BitVec.allOnes 8 <<< (8 * (j + 1) - n))) = leadingBytes bytes n := by
  have hcount : BitPacking.wordCount 8 n = bytesFor n := rfl
  rw [leadingBytes, hcount]
  apply List.ext_getElem
  · rw [List.length_mapIdx, List.length_modify]
  · intro j hj hj'
    rw [List.length_mapIdx, List.length_take] at hj
    rw [List.getElem_mapIdx, List.getElem_modify]
    split
    · rename_i hlast
      rw [show j + 1 = bytesFor n by unfold bytesFor at *; omega]
    · rename_i hwhole
      have hshift : 8 * (j + 1) - n = 0 := by unfold bytesFor at *; omega
      rw [hshift, BitVec.shiftLeft_zero, BitVec.and_allOnes]

theorem bytesConvert_of_lt {bytes : List Byte} {n : Nat} (hpos : 0 < n)
    (hn : n ≤ 8 * bytes.length) (hint : (n : Int) < intMax) : BytesConvert bytes n := by
  have hlen : (CString.ofBits ((BitPacking.unpack bytes).take n)).strlen = n := by
    rw [CString.strlen_ofBits, List.length_take, BitPacking.length_unpack,
      Nat.min_eq_left hn]
  have harg : toInt n = n := toInt_of_range (by omega) (by omega)
  refine ⟨CString.ofBits ((BitPacking.unpack bytes).take n), ?_, hlen, ?_, ?_, ?_⟩
  · rw [harg]
    exact bytes2string_eq_unpack hpos hn hint
  · intro c hc
    obtain ⟨b, _, rfl⟩ := List.mem_map.mp hc
    cases b with
    | false => exact Or.inl rfl
    | true => exact Or.inr rfl
  · rw [string2bytes_eq_pack (by omega) (by omega), hlen, CString.bits_ofBits,
      BitPacking.pack_take_unpack (by decide) bytes hn, mapIdx_eq_leadingBytes hpos]
    rfl
  · rw [leadingBytes, List.length_modify, List.length_take, Nat.min_eq_left]
    unfold bytesFor
    omega

/-- A byte in progress leaves room for the bit that is added to it. -/
theorem partialSum_le {f : Filling} {bits : List Bool} (h : Filled f bits) (c : Char) :
    partialSum f c ≤ 255 := by
  have hrest : (bits.drop (8 * (bits.length / 8))).length = bits.length % 8 := by
    rw [List.length_drop]
    omega
  have hfits : (bits.drop (8 * (bits.length / 8))).length ≤ 8 := by
    rw [hrest]
    omega
  have hfree := BitPacking.toNat_packWord_add_le (w := 8) hfits
  have hb : f.b = (8 - bits.length % 8 - 1) + 1 := by rw [h.b_eq]; omega
  rw [hrest, ← h.data_eq, ← h.b_eq, hb, Nat.pow_succ] at hfree
  have hpos : 0 < 2 ^ (8 - bits.length % 8 - 1) := Nat.pow_pos (by omega)
  have hbit : (if c = '1' then 1 <<< (f.b - 1) else 0) ≤
      2 ^ (8 - bits.length % 8 - 1) := by
    split
    · rw [hb, Nat.add_sub_cancel, Nat.one_shiftLeft]
    · exact Nat.zero_le _
  unfold partialSum
  omega

theorem stringConverts_of_lt {s : CString} (hne : s.strlen ≠ 0)
    (hint : (s.strlen : Int) < intMax) : StringConverts s := by
  have harg : toInt s.strlen = s.strlen := toInt_of_range (by omega) (by omega)
  have hlen : (BitPacking.pack s.bits : List Byte).length = bytesFor s.strlen := by
    rw [BitPacking.length_pack, CString.length_bits]
    rfl
  refine ⟨BitPacking.pack s.bits, string2bytes_eq_pack hne (by omega), hlen, ?_,
    CString.ofBits s.bits, ?_, ?_⟩
  · intro done c rest _
    have hstart : Filled ⟨0#8, 8, []⟩ [] := ⟨rfl, rfl, rfl⟩
    exact partialSum_le (filled_foldl hstart done) c
  · have hback := BitPacking.take_unpack_pack (w := 8) (by decide) s.bits
    rw [CString.length_bits] at hback
    rw [harg, bytes2string_eq_unpack (by omega) ?_ hint, hback]
    rw [hlen]
    unfold bytesFor
    omega
  · show (s.chars.map (· == '1')).map CString.bitChar = _
    rw [List.map_map]
    apply List.map_congr_left
    intro c _
    by_cases hone : c = '1' <;> simp [hone, CString.bitChar]

/-! ## Lengths it does not hold -/

/-- A string of `n` characters comes back only from a count that an `int` holds
together with the terminating NUL. -/
theorem lt_intMax_of_bytes2string {bytes : List Byte} {n : Nat} {s : CString}
    (hn : n ≤ 8 * bytes.length) (h : bytes2string bytes (toInt n) = .ok (some s))
    (hlen : s.strlen = n) : (n : Int) < intMax := by
  have hself : toInt n ≤ n := toInt_le_self (by omega)
  rcases Int.lt_or_le 0 (toInt n) with hpos | hnone
  · have hroom : toInt n < intMax := by
      rw [bytes2string, if_neg (by omega)] at h
      obtain ⟨m, hm, _⟩ := bind_eq_ok h
      have := signed_eq hm
      rw [this] at hm
      unfold signed at hm
      split at hm
      · omega
      · cases hm
    obtain ⟨k, hk⟩ : ∃ k : Nat, toInt n = k := ⟨(toInt n).toNat, by omega⟩
    rw [hk] at h hself hpos hroom
    rw [bytes2string_eq_unpack (by omega) (by omega) hroom] at h
    have hs : CString.ofBits ((BitPacking.unpack bytes).take k) = s :=
      Option.some.inj (Except.ok.inj h)
    have hk' : s.strlen = k := by
      rw [← hs, CString.strlen_ofBits, List.length_take, BitPacking.length_unpack,
        Nat.min_eq_left (by omega)]
    omega
  · rw [bytes2string, if_pos hnone] at h
    cases h

/-- The size `string2bytes` returns is that of the `int` it takes the length
for. -/
theorem lt_intMax_of_stringConverts {s : CString} (h : StringConverts s) :
    (s.strlen : Int) < intMax := by
  obtain ⟨bytes, _, hlen, _, t, hback, ht⟩ := h
  refine lt_intMax_of_bytes2string ?_ hback ?_
  · rw [hlen]
    unfold bytesFor
    omega
  · rw [CString.strlen, ht, List.length_map]
    rfl

/-! ## Main results -/

/-- Bit strings and byte arrays convert back and forth exactly as far as an
`int` counts the bits and the NUL. -/
theorem bitStrings_convert_iff (bytes : List Byte) (n : Nat) (hpos : 1 ≤ n)
    (hn : n ≤ 8 * bytes.length) (s : CString) (hne : s.strlen ≠ 0) :
    (BytesConvert bytes n ↔ n ≤ 2147483646) ∧
      (StringConverts s ↔ s.strlen ≤ 2147483646) := by
  have hmax : intMax = 2147483647 := rfl
  constructor
  · constructor
    · rintro ⟨t, hback, hlen, _⟩
      have := lt_intMax_of_bytes2string hn hback hlen
      omega
    · intro hint
      exact bytesConvert_of_lt hpos hn (by omega)
  · constructor
    · intro h
      have := lt_intMax_of_stringConverts h
      omega
    · intro hint
      exact stringConverts_of_lt hne (by omega)

theorem bitStrings_convert_two_bits :
    (BytesConvert [0xA5#8] 2 ↔ 2 ≤ 2147483646) ∧
      (StringConverts (CString.ofBits [true, false]) ↔
        (CString.ofBits [true, false]).strlen ≤ 2147483646) :=
  bitStrings_convert_iff [0xA5#8] 2 (by decide) (by decide) (CString.ofBits [true, false])
    (by decide)

/-- 2^28 bytes have 2^31 bits; one less than that is still an `int`, and the
string of them is not returned. -/
theorem bitStrings_convert_fails :
    (1 ≤ 2147483647 ∧
        2147483647 ≤ 8 * (List.replicate 268435456 (0#8 : Byte)).length) ∧
      ¬ BytesConvert (List.replicate 268435456 (0#8 : Byte)) 2147483647 := by
  have hlen : (List.replicate 268435456 (0#8 : Byte)).length = 268435456 :=
    List.length_replicate
  have hmax : intMax = 2147483647 := rfl
  refine ⟨⟨by omega, by omega⟩, ?_⟩
  rintro ⟨t, hback, ht, _⟩
  have := lt_intMax_of_bytes2string (by omega) hback ht
  omega

end IrBridge.Codec
