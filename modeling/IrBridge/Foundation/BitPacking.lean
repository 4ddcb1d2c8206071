/-
  Foundation/BitPacking.lean --- bits packed into words, first bit on top.

  `pack` cuts a list of bits into words of `w` bits, the first bit of each in
  the most significant position and the last word filled up with zeros; `unpack`
  reads all bits of all words.  Packing a prefix of unpacked words gives the
  words back, with the bits beyond the prefix cleared (`pack_take_unpack`).
-/
import Mathlib.Algebra.Group.Nat.Defs
import Mathlib.Data.List.GetD

set_option autoImplicit false

namespace IrBridge.Foundation

namespace BitPacking

variable {w : Nat}

/-- The bits below position `p`, from the top down. -/
def packBelow : Nat → List Bool → BitVec w
  | _, [] => 0#w
  | 0, _ :: _ => 0#w
  | p + 1, b :: bits => (if b then BitVec.twoPow w p else 0#w) ||| packBelow p bits

/-- One word: its first `w` bits, zeros where there are none. -/
def packWord (bits : List Bool) : BitVec w := packBelow w bits

/-- All bits of a word, from the top down. -/
def unpackWord (d : BitVec w) : List Bool :=
  (List.range w).map fun k => d.getLsbD (w - 1 - k)

/-- Words that `n` bits need. -/
def wordCount (w n : Nat) : Nat := (n + (w - 1)) / w

/-- Consecutive words. -/
def pack (bits : List Bool) : List (BitVec w) :=
  (List.range (wordCount w bits.length)).map fun j => packWord (bits.drop (w * j))

/-- All bits of all words. -/
def unpack (ds : List (BitVec w)) : List Bool := ds.flatMap unpackWord

/-! ## One word -/

theorem getLsbD_packBelow {p : Nat} (hp : p ≤ w) (bits : List Bool) (i : Nat) :
    (packBelow p bits : BitVec w).getLsbD i =
      (decide (i < p) && bits.getD (p - 1 - i) false) := by
  induction bits generalizing p with
  | nil => simp [packBelow]
  | cons b bits ih =>
      cases p with
      | zero => simp [packBelow]
      | succ p =>
          have htop : (if b then BitVec.twoPow w p else 0#w).getLsbD i =
              (b && decide (i = p)) := by
            cases b with
            | false => simp
            | true =>
                simp only [if_true, BitVec.getLsbD_twoPow, Bool.true_and]
                by_cases hi : i = p
                · simp [hi, show p < w by omega]
                · simp [hi, Ne.symm hi]
          rw [packBelow, BitVec.getLsbD_or, htop, ih (by omega)]
          rcases Nat.lt_trichotomy i p with hlt | heq | hgt
          · have hpos : p + 1 - 1 - i = (p - 1 - i) + 1 := by omega
            rw [hpos, List.getD_cons_succ]
            simp [hlt, show i < p + 1 by omega, show i ≠ p by omega]
          · subst heq
            simp
          · simp [show ¬ i < p by omega, show ¬ i < p + 1 by omega, show i ≠ p by omega]

theorem getLsbD_packWord (bits : List Bool) {i : Nat} (hi : i < w) :
    (packWord bits : BitVec w).getLsbD i = bits.getD (w - 1 - i) false := by
  rw [packWord, getLsbD_packBelow (Nat.le_refl w)]
  simp [hi]

/-- Only the first `w` bits matter. -/
theorem packWord_take (bits : List Bool) :
    (packWord (bits.take w) : BitVec w) = packWord bits := by
  apply BitVec.eq_of_getLsbD_eq
  intro i hi
  rw [getLsbD_packWord _ hi, getLsbD_packWord _ hi]
  simp only [List.getD_eq_getElem?_getD]
  rw [List.getElem?_take_of_lt (by omega)]

/-- A zero bit leaves a word that still has room as it is. -/
theorem packWord_concat_false (bits : List Bool) :
    (packWord (bits ++ [false]) : BitVec w) = packWord bits := by
  apply BitVec.eq_of_getLsbD_eq
  intro i hi
  rw [getLsbD_packWord _ hi, getLsbD_packWord _ hi]
  simp only [List.getD_eq_getElem?_getD]
  rcases Nat.lt_trichotomy (w - 1 - i) bits.length with hlt | heq | hgt
  · rw [List.getElem?_append_left hlt]
  · rw [heq, List.getElem?_concat_length, List.getElem?_eq_none (Nat.le_refl _)]
    rfl
  · rw [List.getElem?_eq_none (l := bits) (by omega),
      List.getElem?_eq_none (by simp; omega)]

/-- A one bit adds its power of two. -/
theorem packWord_concat_true {bits : List Bool} (hroom : bits.length < w) :
    (packWord (bits ++ [true]) : BitVec w) =
      packWord bits + BitVec.twoPow w (w - 1 - bits.length) := by
  -- The new bit is clear in the word so far, so that the sum is an `or`.
  have hclear : (packWord bits : BitVec w) &&& BitVec.twoPow w (w - 1 - bits.length) =
      0#w := by
    apply BitVec.eq_of_getLsbD_eq
    intro i hi
    rw [BitVec.getLsbD_and, getLsbD_packWord _ hi, BitVec.getLsbD_twoPow]
    by_cases hpos : i = w - 1 - bits.length
    · rw [List.getD_eq_getElem?_getD, List.getElem?_eq_none (by omega)]
      simp
    · simp [Ne.symm hpos]
  rw [BitVec.add_eq_or_of_and_eq_zero _ _ hclear]
  apply BitVec.eq_of_getLsbD_eq
  intro i hi
  rw [BitVec.getLsbD_or, getLsbD_packWord _ hi, getLsbD_packWord _ hi,
    BitVec.getLsbD_twoPow]
  simp only [List.getD_eq_getElem?_getD]
  rcases Nat.lt_trichotomy (w - 1 - i) bits.length with hlt | heq | hgt
  · rw [List.getElem?_append_left hlt]
    simp [show w - 1 - bits.length ≠ i by omega]
  · rw [heq, List.getElem?_concat_length, List.getElem?_eq_none (Nat.le_refl _)]
    simp [show w - 1 - bits.length = i by omega, hi]
  · rw [List.getElem?_eq_none (l := bits) (by omega),
      List.getElem?_eq_none (by simp; omega)]
    simp [show w - 1 - bits.length ≠ i by omega]

/-- A prefix of a word leaves the low bits free: adding the last of them still
fits. -/
theorem toNat_packBelow_add_le {p : Nat} (hp : p ≤ w) {bits : List Bool}
    (hlen : bits.length ≤ p) :
    (packBelow p bits : BitVec w).toNat + 2 ^ (p - bits.length) ≤ 2 ^ p := by
  induction bits generalizing p with
  | nil =>
      cases p with
      | zero => simp [packBelow]
      | succ p => simp [packBelow]
  | cons b bits ih =>
      cases p with
      | zero => exact absurd hlen (Nat.not_succ_le_zero _)
      | succ p =>
          rw [List.length_cons] at hlen
          have hrest := ih (p := p) (by omega) (by omega)
          have hpos : 0 < 2 ^ (p - bits.length) := Nat.pow_pos (by omega)
          have hdouble : 2 ^ (p + 1) = 2 ^ p + 2 ^ p := by rw [Nat.pow_succ]; omega
          rw [packBelow, List.length_cons, Nat.add_sub_add_right, BitVec.toNat_or]
          cases b with
          | false =>
              have hzero : (if false = true then BitVec.twoPow w p else 0#w).toNat = 0 := rfl
              rw [hzero, Nat.zero_or]
              omega
          | true =>
              have htop : (if true = true then BitVec.twoPow w p else 0#w).toNat =
                  2 ^ p * 1 := by
                rw [if_pos rfl, Nat.mul_one, BitVec.toNat_twoPow,
                  Nat.mod_eq_of_lt (Nat.pow_lt_pow_right (by omega) hp)]
              rw [htop, ← Nat.two_pow_add_eq_or_of_lt (by omega)]
              omega

theorem toNat_packWord_add_le {bits : List Bool} (hlen : bits.length ≤ w) :
    (packWord bits : BitVec w).toNat + 2 ^ (w - bits.length) ≤ 2 ^ w :=
  toNat_packBelow_add_le (Nat.le_refl w) hlen

@[simp] theorem length_unpackWord (d : BitVec w) : (unpackWord d).length = w := by
  simp [unpackWord]

theorem getD_unpackWord (d : BitVec w) {k : Nat} (hk : k < w) :
    (unpackWord d).getD k false = d.getLsbD (w - 1 - k) := by
  simp [unpackWord, hk]

/-! ## Many words -/

@[simp] theorem length_pack (bits : List Bool) :
    (pack bits : List (BitVec w)).length = wordCount w bits.length := by
  simp [pack]

theorem getElem_pack (bits : List Bool) {j : Nat}
    (hj : j < (pack bits : List (BitVec w)).length) :
    (pack bits : List (BitVec w))[j] = packWord (bits.drop (w * j)) := by
  simp [pack]

@[simp] theorem unpack_nil : unpack ([] : List (BitVec w)) = [] := rfl

theorem unpack_cons (d : BitVec w) (ds : List (BitVec w)) :
    unpack (d :: ds) = unpackWord d ++ unpack ds :=
  List.flatMap_cons

@[simp] theorem length_unpack (ds : List (BitVec w)) :
    (unpack ds).length = w * ds.length := by
  induction ds with
  | nil => rfl
  | cons d ds ih =>
      rw [unpack_cons, List.length_append, length_unpackWord, ih, List.length_cons,
        Nat.mul_succ, Nat.add_comm]

/-- Bit `k` of word `j`. -/
theorem getD_unpack (ds : List (BitVec w)) (j : Nat) {k : Nat} (hk : k < w) :
    (unpack ds).getD (w * j + k) false = (ds.getD j 0#w).getLsbD (w - 1 - k) := by
  induction ds generalizing j with
  | nil => simp
  | cons d ds ih =>
      rw [unpack_cons]
      cases j with
      | zero =>
          rw [Nat.mul_zero, Nat.zero_add, List.getD_append _ _ _ _ (by simpa using hk),
            getD_unpackWord d hk, List.getD_cons_zero]
      | succ j =>
          rw [List.getD_append_right _ _ _ _ (by simp [Nat.mul_succ]; omega),
            length_unpackWord, List.getD_cons_succ, ← ih j]
          congr 1
          rw [Nat.mul_succ]
          omega

/-- A prefix of unpacked words packs to the words it touches, with the bits of
the last one that lie beyond the prefix cleared. -/
theorem pack_take_unpack (hw : 0 < w) (ds : List (BitVec w)) {n : Nat}
    (hn : n ≤ w * ds.length) :
    pack ((unpack ds).take n) = (ds.take (wordCount w n)).mapIdx
      fun j d => d &&& (BitVec.allOnes w <<< (w * (j + 1) - n)) := by
  have hlen : ((unpack ds).take n).length = n := by
    rw [List.length_take, length_unpack, Nat.min_eq_left hn]
  have hcount : wordCount w n ≤ ds.length := by
    unfold wordCount
    apply Nat.le_of_lt_succ
    rw [Nat.div_lt_iff_lt_mul hw, Nat.succ_mul, Nat.mul_comm]
    omega
  apply List.ext_getElem
  · simp [hlen, hcount]
  · intro j hj hj'
    rw [length_pack, hlen] at hj
    rw [getElem_pack, List.getElem_mapIdx, List.getElem_take]
    apply BitVec.eq_of_getLsbD_eq
    intro i hi
    have hjds : j < ds.length := by omega
    have hword : ds.getD j 0#w = ds[j] := List.getD_eq_getElem _ _ hjds
    rw [getLsbD_packWord _ hi, BitVec.getLsbD_and, BitVec.getLsbD_shiftLeft,
      BitVec.getLsbD_allOnes]
    simp only [List.getD_eq_getElem?_getD, List.getElem?_drop]
    by_cases hin : w * j + (w - 1 - i) < n
    · have hkeep : ¬ i < w * (j + 1) - n := by rw [Nat.mul_succ]; omega
      have hbit := getD_unpack ds j (k := w - 1 - i) (by omega)
      rw [List.getD_eq_getElem?_getD, hword, show w - 1 - (w - 1 - i) = i by omega] at hbit
      rw [List.getElem?_take_of_lt hin, hbit]
      simp [hkeep, hi, show i - (w * (j + 1) - n) < w by omega]
    · have hclear : i < w * (j + 1) - n := by rw [Nat.mul_succ]; omega
      rw [List.getElem?_eq_none (by simp; omega)]
      simp [hclear]

/-- Unpacking gives the packed bits back, followed by the filling. -/
theorem take_unpack_pack (hw : 0 < w) (bits : List Bool) :
    (unpack (pack bits : List (BitVec w))).take bits.length = bits := by
  have hroom : bits.length ≤ w * wordCount w bits.length := by
    have hdiv := Nat.div_add_mod (bits.length + (w - 1)) w
    have hmod := Nat.mod_lt (bits.length + (w - 1)) hw
    unfold wordCount
    omega
  have hlen : (unpack (pack bits : List (BitVec w))).length =
      w * wordCount w bits.length := by
    rw [length_unpack, length_pack]
  apply List.ext_getElem
  · rw [List.length_take, hlen, Nat.min_eq_left hroom]
  · intro i hi hi'
    have hk : i % w < w := Nat.mod_lt i hw
    have hj : i / w < wordCount w bits.length :=
      Nat.div_lt_of_lt_mul (Nat.lt_of_lt_of_le hi' hroom)
    have hsplit : w * (i / w) + i % w = i := Nat.div_add_mod i w
    have hbit := getD_unpack (pack bits : List (BitVec w)) (i / w) hk
    rw [hsplit, List.getD_eq_getElem (pack bits : List (BitVec w)) _ (by rwa [length_pack]),
      getElem_pack, getLsbD_packWord _ (by omega), List.getD_eq_getElem?_getD,
      List.getD_eq_getElem?_getD, List.getElem?_drop,
      show w * (i / w) + (w - 1 - (w - 1 - i % w)) = i by omega] at hbit
    rw [List.getElem_take]
    rw [List.getElem?_eq_getElem hi', List.getElem?_eq_getElem (by omega)] at hbit
    exact hbit

/-! ## One bit changed -/

theorem getD_modify_not (bits : List Bool) {i : Nat} (hi : i < bits.length) (k : Nat) :
    (bits.modify i (!·)).getD k false = (bits.getD k false ^^ decide (k = i)) := by
  rw [List.getD_eq_getElem?_getD, List.getD_eq_getElem?_getD, List.getElem?_modify]
  by_cases hk : k = i
  · subst hk
    rw [List.getElem?_eq_getElem hi]
    simp
  · simp [hk, Ne.symm hk]

/-- A flipped bit flips one bit of one word. -/
theorem pack_modify_not (hw : 0 < w) (bits : List Bool) {i : Nat} (hi : i < bits.length) :
    (pack (bits.modify i (!·)) : List (BitVec w)) =
      (pack bits).modify (i / w) (· ^^^ BitVec.twoPow w (w - 1 - i % w)) := by
  apply List.ext_getElem
  · rw [length_pack, List.length_modify, List.length_modify, length_pack]
  · intro j hj _
    have hsplit : w * (i / w) + i % w = i := Nat.div_add_mod i w
    have hmod : i % w < w := Nat.mod_lt i hw
    rw [getElem_pack, List.getElem_modify, getElem_pack]
    apply BitVec.eq_of_getLsbD_eq
    intro k hk
    have hbit : ∀ bits : List Bool, (packWord (bits.drop (w * j)) : BitVec w).getLsbD k =
        bits.getD (w * j + (w - 1 - k)) false := by
      intro bits
      rw [getLsbD_packWord _ hk, List.getD_eq_getElem?_getD, List.getD_eq_getElem?_getD,
        List.getElem?_drop]
    rw [hbit, getD_modify_not bits hi]
    by_cases hword : i / w = j
    · have hpos : (w * j + (w - 1 - k) = i) = (w - 1 - i % w = k) := by
        apply propext
        rw [← hword]
        omega
      rw [if_pos hword, BitVec.getLsbD_xor, hbit, BitVec.getLsbD_twoPow,
        decide_eq_true (show w - 1 - i % w < w by omega), Bool.true_and]
      simp only [hpos]
    · have hother : w * j + (w - 1 - k) ≠ i := by
        intro heq
        apply hword
        rw [← heq, Nat.mul_add_div hw, Nat.div_eq_of_lt (by omega), Nat.add_zero]
      rw [if_neg hword, hbit, decide_eq_false hother, Bool.xor_false]

end BitPacking

end IrBridge.Foundation
