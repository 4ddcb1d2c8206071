/-
  Codec/Bitops.lean --- `string2bytes` and `bytes2string`.

  The two conversions between a string of `'0'`/`'1'` and an array of samples.
  On the strings and counts an `int` can hold they are packing and unpacking
  (`string2bytes_eq_pack`, `bytes2string_eq_unpack`), so that packing a frame
  that was unpacked gives back its samples up to the bits cut off at the end.
-/
import IrBridge.Platform.Types
import IrBridge.Foundation.BitPacking

set_option autoImplicit false

namespace IrBridge.Codec

open IrBridge.Foundation
open IrBridge.Platform

/-! ## string2bytes -/

/-- `*pOut` (with the samples stored in it) and the returned size. -/
structure Sampled where
  out : Option (List Byte)
  size : Nat
  deriving DecidableEq

/-- `data`, `b` and the samples stored so far; `j` is their number. -/
structure Filling where
  data : Byte
  b : Nat
  out : List Byte

/-- One turn of the loop. -/
def fillStep (f : Filling) (c : Char) : Filling :=
  let b := f.b - 1
  let data := if c = '1' then f.data + (1#8 <<< b) else f.data
  if b = 0 then ⟨0#8, 8, f.out ++ [data]⟩ else ⟨data, b, f.out⟩

/-- `nbBytes`, in both directions. -/
def nbBytes (nbbits : Int) : Int :=
  nbbits.tdiv 8 + if nbbits.tmod 8 ≠ 0 then 1 else 0

/-- `string2bytes(in, &out)`. -/
def string2bytes (s : CString) : Sampled :=
  let nbbits := toInt s.strlen
  if nbbits ≤ 0 then ⟨none, 0⟩
  else
    let f := (s.chars.take nbbits.toNat).foldl fillStep ⟨0#8, 8, []⟩
    ⟨some (if f.b ≠ 8 then f.out ++ [f.data] else f.out), (nbBytes nbbits).toNat⟩

theorem nbBytes_eq (n : Nat) : nbBytes n = BitPacking.wordCount 8 n := by
  unfold nbBytes BitPacking.wordCount
  rw [Int.tdiv_eq_ediv_of_nonneg (by omega), Int.tmod_eq_emod_of_nonneg (by omega)]
  split <;> omega

/-- The loop variables after the bits `bits`: whole samples are stored, the rest
is in `data`. -/
structure Filled (f : Filling) (bits : List Bool) : Prop where
  data_eq : f.data = BitPacking.packWord (bits.drop (8 * (bits.length / 8)))
  b_eq : f.b = 8 - bits.length % 8
  out_eq : f.out = (List.range (bits.length / 8)).map
    fun j => BitPacking.packWord (bits.drop (8 * j))

/-- Adding a bit to the sample in progress. -/
theorem packWord_concat {bits : List Bool} (hroom : bits.length < 8) (b : Bool) :
    (BitPacking.packWord (bits ++ [b]) : Byte) =
      if b then BitPacking.packWord bits + (1#8 <<< (7 - bits.length))
      else BitPacking.packWord bits := by
  cases b with
  | false => exact BitPacking.packWord_concat_false bits
  | true =>
      rw [BitPacking.packWord_concat_true hroom, BitVec.twoPow]
      rfl

/-- Whole samples are not touched by later bits. -/
theorem packWord_drop_concat (bits : List Bool) (b : Bool) {j : Nat}
    (hj : 8 * (j + 1) ≤ bits.length) :
    (BitPacking.packWord ((bits ++ [b]).drop (8 * j)) : Byte) =
      BitPacking.packWord (bits.drop (8 * j)) := by
  rw [List.drop_append_of_le_length (by omega), ← BitPacking.packWord_take,
    List.take_append_of_le_length (by simp; omega), BitPacking.packWord_take]

/-- One turn of the loop stores one bit. -/
theorem Filled.step {f : Filling} {bits : List Bool} (h : Filled f bits) (c : Char) :
    Filled (fillStep f c) (bits ++ [c == '1']) := by
  obtain ⟨data, b, out⟩ := f
  obtain ⟨hdata, hb, hout⟩ := h
  simp only at hdata hb hout
  subst hdata hb hout
  have hrest : (bits.drop (8 * (bits.length / 8))).length = bits.length % 8 := by
    rw [List.length_drop]
    omega
  have hlast : (BitPacking.packWord
      ((bits ++ [c == '1']).drop (8 * (bits.length / 8))) : Byte) =
        if c = '1' then
          BitPacking.packWord (bits.drop (8 * (bits.length / 8))) +
            (1#8 <<< (8 - bits.length % 8 - 1))
        else BitPacking.packWord (bits.drop (8 * (bits.length / 8))) := by
    rw [List.drop_append_of_le_length (by omega), packWord_concat (by omega), hrest,
      show 7 - bits.length % 8 = 8 - bits.length % 8 - 1 by omega]
    simp
  have hwhole : ∀ k, k ≤ bits.length / 8 →
      ((List.range k).map fun j =>
        (BitPacking.packWord ((bits ++ [c == '1']).drop (8 * j)) : Byte)) =
      (List.range k).map fun j => BitPacking.packWord (bits.drop (8 * j)) := by
    intro k hk
    refine List.map_congr_left fun j hj => packWord_drop_concat bits _ ?_
    have := List.mem_range.mp hj
    omega
  unfold fillStep
  simp only
  split
  · -- The sample is complete.
    rename_i hfull
    have hdiv : (bits ++ [c == '1']).length / 8 = bits.length / 8 + 1 := by
      rw [List.length_append, List.length_singleton]
      omega
    have hdone : (bits ++ [c == '1']).drop (8 * (bits.length / 8 + 1)) = [] :=
      List.drop_of_length_le (by rw [List.length_append, List.length_singleton]; omega)
    refine ⟨?_, ?_, ?_⟩
    · rw [hdiv, hdone]
      rfl
    · simp only [List.length_append, List.length_singleton]
      omega
    · rw [hdiv, List.range_succ, List.map_append, List.map_singleton,
        hwhole _ (Nat.le_refl _), hlast]
  · rename_i hroom
    have hdiv : (bits ++ [c == '1']).length / 8 = bits.length / 8 := by
      rw [List.length_append, List.length_singleton]
      omega
    refine ⟨?_, ?_, ?_⟩
    · rw [hdiv, hlast]
    · simp only [List.length_append, List.length_singleton]
      omega
    · rw [hdiv, hwhole _ (Nat.le_refl _)]

/-- The loop variables after a whole string. -/
theorem filled_foldl {f : Filling} {bits : List Bool} (h : Filled f bits)
    (chars : List Char) :
    Filled (chars.foldl fillStep f) (bits ++ chars.map (· == '1')) := by
  induction chars generalizing f bits with
  | nil => simpa using h
  | cons c chars ih =>
      have hrest := ih (h.step c)
      rwa [List.append_assoc] at hrest

/-- `string2bytes` packs the bits of every string whose length an `int` holds. -/
theorem string2bytes_eq_pack {s : CString} (hne : s.strlen ≠ 0)
    (hint : (s.strlen : Int) ≤ intMax) :
    string2bytes s =
      ⟨some (BitPacking.pack s.bits), BitPacking.wordCount 8 s.strlen⟩ := by
  have hnb : toInt s.strlen = s.strlen := toInt_of_range (by omega) hint
  have hall : s.chars.take (s.strlen : Int).toNat = s.chars :=
    List.take_of_length_le (Nat.le_refl _)
  have hstart : Filled ⟨0#8, 8, []⟩ [] := ⟨rfl, rfl, rfl⟩
  have hfilled := filled_foldl hstart s.chars
  rw [List.nil_append] at hfilled
  change Filled (s.chars.foldl fillStep ⟨0#8, 8, []⟩) s.bits at hfilled
  have hpack : (if (s.chars.foldl fillStep ⟨0#8, 8, []⟩).b ≠ 8 then
      (s.chars.foldl fillStep ⟨0#8, 8, []⟩).out ++
        [(s.chars.foldl fillStep ⟨0#8, 8, []⟩).data]
      else (s.chars.foldl fillStep ⟨0#8, 8, []⟩).out) = BitPacking.pack s.bits := by
    rw [hfilled.b_eq, hfilled.out_eq, hfilled.data_eq, BitPacking.pack]
    split
    · rename_i hpart
      have hcount : BitPacking.wordCount 8 s.bits.length = s.bits.length / 8 + 1 := by
        unfold BitPacking.wordCount
        omega
      rw [hcount, List.range_succ, List.map_append, List.map_singleton]
    · rename_i hwhole
      have hcount : BitPacking.wordCount 8 s.bits.length = s.bits.length / 8 := by
        unfold BitPacking.wordCount
        omega
      rw [hcount]
  unfold string2bytes
  simp only [hnb, hall]
  rw [if_neg (by omega), hpack, nbBytes_eq, Int.toNat_natCast]

/-! ## bytes2string -/

/-- The characters of one sample, as long as there are bits to write. -/
def sampleChars (d : Byte) (count : Nat) : List Char :=
  (List.range (min 8 count)).map fun b =>
    CString.bitChar ((d &&& (1#8 <<< (7 - b))) != 0#8)

/-- The nested loop: `in[i]` is read for every sample that still has bits. -/
def fillString : List Byte → Nat → Except Fault (List Char)
  | _, 0 => .ok []
  | [], _ + 1 => .error .readOutside
  | d :: ds, n + 1 => do
      let rest ← fillString ds (n + 1 - 8)
      return sampleChars d (n + 1) ++ rest

/-- `bytes2string(in, nbbits)`. -/
def bytes2string (ds : List Byte) (nbbits : Int) : Except Fault (Option CString) :=
  if nbbits ≤ 0 then .ok none
  else do
    let _ ← signed (nbbits + 1)
    let chars ← fillString ds nbbits.toNat
    return some (CString.ofBuffer (chars ++ ['\x00']))

theorem sampleChars_eq (d : Byte) (count : Nat) :
    sampleChars d count =
      ((BitPacking.unpackWord d).take count).map CString.bitChar := by
  have hbit : ∀ b, ((d &&& (1#8 <<< (7 - b))) != 0#8) = d.getLsbD (7 - b) := by
    intro b
    have htwo : 1#8 <<< (7 - b) = BitVec.twoPow 8 (7 - b) := rfl
    have hpos : 7 - b < 8 := by omega
    rw [htwo, BitVec.and_twoPow]
    cases d.getLsbD (7 - b) with
    | false => rfl
    | true =>
        simp only [if_true, bne_iff_ne]
        intro hzero
        have hget := congrArg (fun x : BitVec 8 => x.getLsbD (7 - b)) hzero
        simp [hpos] at hget
  unfold sampleChars BitPacking.unpackWord
  rw [← List.map_take, List.take_range, List.map_map, Nat.min_comm]
  exact List.map_congr_left fun b _ => by rw [hbit b]; rfl

theorem fillString_eq (ds : List Byte) {n : Nat} (hn : n ≤ 8 * ds.length) :
    fillString ds n = .ok (((BitPacking.unpack ds).take n).map CString.bitChar) := by
  induction ds generalizing n with
  | nil =>
      obtain rfl : n = 0 := by simpa using hn
      rfl
  | cons d ds ih =>
      cases n with
      | zero => rfl
      | succ n =>
          rw [List.length_cons] at hn
          rw [fillString, ih (by omega), ok_bind, pure_eq_ok, sampleChars_eq,
            ← List.map_append, BitPacking.unpack_cons, List.take_append,
            BitPacking.length_unpackWord]

/-- `bytes2string` unpacks the first `n` bits, when the array has them. -/
theorem bytes2string_eq_unpack {ds : List Byte} {n : Nat} (hpos : 0 < n)
    (hn : n ≤ 8 * ds.length) (hint : (n : Int) < intMax) :
    bytes2string ds n = .ok (some (CString.ofBits ((BitPacking.unpack ds).take n))) := by
  have hstring := CString.ofBuffer_bits_padded ((BitPacking.unpack ds).take n) 1
  rw [List.replicate_one] at hstring
  rw [bytes2string, if_neg (by omega), signed_of_range (by omega) (by omega), ok_bind,
    Int.toNat_natCast, fillString_eq ds hn, ok_bind, pure_eq_ok, hstring]

end IrBridge.Codec
