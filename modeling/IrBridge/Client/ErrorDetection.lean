/-
  Client/ErrorDetection.lean --- what the check value of the scale is worth.

  The check value is the low byte of a sum with its lowest bit forced to one, and
  two more when the sum carried.  So it does not see the lowest bit of the sum but
  where that bit decides about the carry.  Of the errors in a single bit of a
  frame, the ones that can pass are those in the lowest bit of a summand; which of
  them pass depends on the sum alone (`Blind`).  The daemon and the Android client
  look at the same samples, so what passes one passes the other.
-/
import Mathlib.Tactic.IntervalCases
import IrBridge.Client.Agreement

set_option autoImplicit false

namespace IrBridge.Client

open IrBridge.Foundation
open IrBridge.Codec
open IrBridge.Platform
open IrBridge.Scale

/-! ## The check value of neighbouring sums -/

/-- `sumFF`, without bit operations. -/
theorem sumFF_eq (s : Nat) :
    sumFF s = 2 * (s % 256 / 2) + 1 +
      if 2 ≤ s / 256 ∨ s / 256 = 1 ∧ s % 2 = 1 then 2 else 0 := by
  have hodd : ∀ r < 256, r ||| 1 = 2 * (r / 2) + 1 := by decide +kernel
  have hlow : (s &&& 0xFF) ||| 0x1 = 2 * (s % 256 / 2) + 1 := by
    rw [show (0xFF : Nat) = 2 ^ 8 - 1 from rfl, Nat.and_two_pow_sub_one_eq_mod]
    exact hodd _ (Nat.mod_lt s (by decide))
  unfold sumFF
  rw [hlow]
  dsimp only
  split
  · rw [if_pos (by omega)]
  · rw [if_neg (by omega)]

/-- The check value does not tell this sum from the next one. -/
def Blind (sum : Nat) : Prop :=
  sum % 2 = 0 ∧ sum / 256 ≠ 1 ∨ sum % 2 = 1 ∧ sum / 256 = 1 ∧ sum ≠ 511

instance (sum : Nat) : Decidable (Blind sum) := inferInstanceAs (Decidable (_ ∨ _))

/-- A power of two in a sum is seen, except for the lowest one. -/
theorem sumFF_add_two_pow (s : Nat) {k : Nat} (hk : k < 8) :
    sumFF (s + 2 ^ k) = sumFF s ↔ k = 0 ∧ Blind s := by
  rw [sumFF_eq, sumFF_eq, Blind]
  interval_cases k
  · split <;> split <;> omega
  all_goals
    refine iff_of_false ?_ (by omega)
    split <;> split <;> omega

/-! ## One sample -/

/-- A flipped bit of a sample adds its power of two to the complement, or takes
it away. -/
theorem complement_flip (d : Byte) {k : Nat} (hk : k < 8) :
    if d.getLsbD k then complement (d ^^^ BitVec.twoPow 8 k) = complement d + 2 ^ k
    else complement (d ^^^ BitVec.twoPow 8 k) + 2 ^ k = complement d := by
  have hall : ∀ n < 256, ∀ k < 8,
      if (BitVec.ofNat 8 n).getLsbD k then
        complement (BitVec.ofNat 8 n ^^^ BitVec.twoPow 8 k) =
          complement (BitVec.ofNat 8 n) + 2 ^ k
      else complement (BitVec.ofNat 8 n ^^^ BitVec.twoPow 8 k) + 2 ^ k =
        complement (BitVec.ofNat 8 n) := by
    decide +kernel
  have hd := hall d.toNat d.isLt k hk
  rwa [BitVec.ofNat_toNat, BitVec.setWidth_eq] at hd

/-- A changed summand changes the check value, unless it changes by one and the
check value is blind there. -/
theorem sumFF_flip {d : Byte} {k : Nat} (hk : k < 8) {rest sum : Nat}
    (hsum : sum = complement d + rest) :
    sumFF (complement (d ^^^ BitVec.twoPow 8 k) + rest) = sumFF sum ↔
      k = 0 ∧ Blind (sum - if d.getLsbD k then 0 else 1) := by
  have hflip := complement_flip d hk
  subst hsum
  cases hbit : d.getLsbD k with
  | true =>
      rw [hbit, if_pos rfl] at hflip
      rw [hflip, if_pos rfl, Nat.sub_zero,
        show complement d + 2 ^ k + rest = complement d + rest + 2 ^ k by omega]
      exact sumFF_add_two_pow _ hk
  | false =>
      rw [hbit, if_neg Bool.false_ne_true] at hflip
      rw [if_neg Bool.false_ne_true, ← hflip, eq_comm,
        show complement (d ^^^ BitVec.twoPow 8 k) + 2 ^ k + rest =
          complement (d ^^^ BitVec.twoPow 8 k) + rest + 2 ^ k by omega]
      refine (sumFF_add_two_pow _ hk).trans (and_congr_right fun hzero => ?_)
      subst hzero
      rfl

/-! ## One frame -/

/-- `sum` of the first four samples. -/
def sampleSum : List Byte → Nat
  | d0 :: d1 :: d2 :: d3 :: _ => (figureOf d0 d1 d2 d3 0).sum
  | _ => 0

/-- An error in bit `i` that the check value does not see: in the lowest bit of
the second, third or fourth sample, where the check value is blind. -/
def Undetected (bits : List Bool) (i : Nat) : Prop :=
  (i = 15 ∨ i = 23 ∨ i = 31) ∧
    Blind (sampleSum (BitPacking.pack bits) - if bits.getD i false then 0 else 1)

theorem sampleSum_eq (d0 d1 d2 d3 d4 : Byte) : sampleSum [d0, d1, d2, d3, d4] =
    complement d0 + complement d1 + complement d2 + complement d3 := rfl

theorem examine_raw_iff (d0 d1 d2 d3 d4 : Byte) :
    (examine [d0, d1, d2, d3, d4]).raw? ≠ none ↔
      d0 = 0x54#8 ∧ sumFF (sampleSum [d0, d1, d2, d3, d4]) = complement d4 := by
  rw [examine]
  by_cases hd : d0 = 0x54#8
  · rw [if_pos hd]
    by_cases hcheck : sumFF (sampleSum [d0, d1, d2, d3, d4]) = complement d4
    · have haccepted : sumFF (figureOf d0 d1 d2 d3 d4).sum = (figureOf d0 d1 d2 d3 d4).check :=
        hcheck
      dsimp only
      rw [if_pos haccepted]
      exact iff_of_true (by simp [Verdict.raw?]) ⟨hd, hcheck⟩
    · have hrejected : ¬ sumFF (figureOf d0 d1 d2 d3 d4).sum = (figureOf d0 d1 d2 d3 d4).check :=
        hcheck
      dsimp only
      rw [if_neg hrejected]
      exact iff_of_false (by simp [Verdict.raw?]) fun h => hcheck h.2
  · rw [if_neg hd]
    exact iff_of_false (by simp [Verdict.raw?]) fun h => hd h.1

/-- A flipped bit is another sample. -/
theorem flip_ne (d : Byte) {k : Nat} (hk : k < 8) : d ^^^ BitVec.twoPow 8 k ≠ d := by
  intro heq
  have hbit := congrArg (fun x : Byte => x.getLsbD k) heq
  simp [hk] at hbit

theorem complement_flip_ne (d : Byte) {k : Nat} (hk : k < 8) :
    complement (d ^^^ BitVec.twoPow 8 k) ≠ complement d := by
  have hflip := complement_flip d hk
  have hpos : 0 < 2 ^ k := Nat.two_pow_pos k
  split at hflip <;> omega

/-- A flipped bit of a summand. -/
theorem examine_summand {d0 d1 d2 d3 d4 e1 e2 e3 d : Byte}
    (h : (examine [d0, d1, d2, d3, d4]).raw? ≠ none) {k : Nat} (hk : k < 8) (rest : Nat)
    (hsum : sampleSum [d0, d1, d2, d3, d4] = complement d + rest)
    (hflipped : sampleSum [d0, e1, e2, e3, d4] =
      complement (d ^^^ BitVec.twoPow 8 k) + rest) :
    (examine [d0, e1, e2, e3, d4]).raw? ≠ none ↔
      k = 0 ∧ Blind (sampleSum [d0, d1, d2, d3, d4] - if d.getLsbD k then 0 else 1) := by
  obtain ⟨htrail, hcheck⟩ := (examine_raw_iff d0 d1 d2 d3 d4).mp h
  rw [examine_raw_iff, and_iff_right htrail, ← hcheck, hflipped]
  exact sumFF_flip hk hsum

/-- An accepted frame with one bit flipped is accepted if and only if the bit is
the lowest one of a summand and the check value is blind there. -/
theorem examine_flip {d0 d1 d2 d3 d4 : Byte} (h : (examine [d0, d1, d2, d3, d4]).raw? ≠ none)
    {j k : Nat} (hj : j < 5) (hk : k < 8) :
    (examine ([d0, d1, d2, d3, d4].modify j (· ^^^ BitVec.twoPow 8 k))).raw? ≠ none ↔
      (j = 1 ∨ j = 2 ∨ j = 3) ∧ k = 0 ∧
        Blind (sampleSum [d0, d1, d2, d3, d4] -
          if ([d0, d1, d2, d3, d4].getD j 0).getLsbD k then 0 else 1) := by
  obtain ⟨htrail, hcheck⟩ := (examine_raw_iff d0 d1 d2 d3 d4).mp h
  interval_cases j
  · -- The trailer is no longer 0x54.
    refine iff_of_false (fun hraw => ?_) (by simp)
    have hsame := ((examine_raw_iff _ d1 d2 d3 d4).mp hraw).1
    exact flip_ne d0 hk (hsame.trans htrail.symm)
  · show (examine [d0, d1 ^^^ BitVec.twoPow 8 k, d2, d3, d4]).raw? ≠ none ↔ _
    refine (examine_summand (d := d1) h hk (complement d0 + complement d2 + complement d3) ?_
      ?_).trans (and_iff_right (by decide)).symm
    · rw [sampleSum_eq]
      omega
    · rw [sampleSum_eq]
      omega
  · show (examine [d0, d1, d2 ^^^ BitVec.twoPow 8 k, d3, d4]).raw? ≠ none ↔ _
    refine (examine_summand (d := d2) h hk (complement d0 + complement d1 + complement d3) ?_
      ?_).trans (and_iff_right (by decide)).symm
    · rw [sampleSum_eq]
      omega
    · rw [sampleSum_eq]
      omega
  · show (examine [d0, d1, d2, d3 ^^^ BitVec.twoPow 8 k, d4]).raw? ≠ none ↔ _
    refine (examine_summand (d := d3) h hk (complement d0 + complement d1 + complement d2) ?_
      ?_).trans (and_iff_right (by decide)).symm
    · rw [sampleSum_eq]
      omega
    · rw [sampleSum_eq]
      omega
  · -- The check value is another one, the sum is not.
    refine iff_of_false (fun hraw => ?_) (by simp)
    have hsame := ((examine_raw_iff d0 d1 d2 d3 _).mp hraw).2
    exact complement_flip_ne d4 hk (hsame.symm.trans hcheck)

/-! ## One bit of the frame -/

/-- Bit `i` of a frame is bit `7 - i % 8` of sample `i / 8`. -/
theorem getLsbD_pack (bits : List Bool) {i : Nat} (hi : i < bits.length) :
    ((BitPacking.pack bits : List Byte).getD (i / 8) 0).getLsbD (8 - 1 - i % 8) =
      bits.getD i false := by
  have hword : i / 8 < (BitPacking.pack bits : List Byte).length := by
    rw [BitPacking.length_pack, BitPacking.wordCount]
    omega
  rw [List.getD_eq_getElem _ _ hword, BitPacking.getElem_pack,
    BitPacking.getLsbD_packWord _ (by omega), List.getD_eq_getElem?_getD,
    List.getD_eq_getElem?_getD, List.getElem?_drop,
    show 8 * (i / 8) + (8 - 1 - (8 - 1 - i % 8)) = i by omega]

theorem examine_pack_flip {bits : List Bool} (hlen : 33 ≤ bits.length ∧ bits.length ≤ 40)
    (h : (examine (BitPacking.pack bits)).raw? ≠ none) {i : Nat} (hi : i < bits.length) :
    (examine (BitPacking.pack (bits.modify i (!·)))).raw? ≠ none ↔ Undetected bits i := by
  have hfive : (BitPacking.pack bits : List Byte).length = 5 := by
    rw [BitPacking.length_pack, BitPacking.wordCount]
    omega
  have hbit := getLsbD_pack bits hi
  rw [BitPacking.pack_modify_not (by decide) bits hi, Undetected]
  generalize (BitPacking.pack bits : List Byte) = samples at h hfive hbit ⊢
  obtain ⟨d0, d1, d2, d3, d4, rfl⟩ := exists_samples hfive
  rw [examine_flip h (by omega) (by omega), hbit, ← and_assoc]
  refine and_congr_left fun _ => ?_
  omega

/-- For every frame that a receiver accepts and every bit of it: with this bit
flipped the receiver accepts the frame if and only if it is the lowest bit of the
head or of one of the two bytes of the weight, and the check value is blind at
the sum. -/
theorem single_bit_error {bits : List Bool} (hfits : bits.length ≤ decodeBuffSize) {i : Nat}
    (hi : i < bits.length) :
    (starfritRaw (CString.ofBits bits) ≠ none →
      (starfritRaw (CString.ofBits (bits.modify i (!·))) ≠ none ↔ Undetected bits i)) ∧
    (figureRaw (CString.ofBits bits) ≠ none →
      (figureRaw (CString.ofBits (bits.modify i (!·))) ≠ none ↔ Undetected bits i)) := by
  have hlength : (bits.modify i (!·)).length = bits.length := List.length_modify ..
  constructor
  · intro haccepted
    rw [starfritRaw_eq (by simpa using hfits), CString.strlen_ofBits,
      CString.bits_ofBits] at haccepted
    rw [starfritRaw_eq (by simpa using hfits), CString.strlen_ofBits, CString.bits_ofBits,
      hlength]
    by_cases hlen : 33 ≤ bits.length ∧ bits.length ≤ 40
    · rw [if_pos hlen] at haccepted ⊢
      exact examine_pack_flip hlen haccepted hi
    · rw [if_neg hlen] at haccepted
      exact absurd rfl haccepted
  · intro haccepted
    rw [figureRaw_eq, CString.strlen_ofBits, CString.bits_ofBits] at haccepted
    rw [figureRaw_eq, CString.strlen_ofBits, CString.bits_ofBits, hlength]
    by_cases hlen : bits.length = 39
    · rw [if_pos hlen] at haccepted ⊢
      exact examine_pack_flip (by omega) haccepted hi
    · rw [if_neg hlen] at haccepted
      exact absurd rfl haccepted

/-- The 39 bits of 88.3 kg. -/
def frame883 : List Bool :=
  (BitPacking.unpack [0x54#8, 0x7F#8, 0xFC#8, 0x8C#8, 0x5C#8]).take 39

/-- An error in the lowest bit of the head of this frame passes. -/
theorem single_bit_error_head :
    starfritRaw (CString.ofBits (frame883.modify 15 (!·))) ≠ none := by
  have hundetected : Undetected frame883 15 := ⟨by decide, by decide +kernel⟩
  have haccepted : starfritRaw (CString.ofBits frame883) ≠ none := by decide +kernel
  exact ((single_bit_error (by decide) (by decide)).1 haccepted).mpr hundetected

end IrBridge.Client
