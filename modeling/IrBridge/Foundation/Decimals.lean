/-
  Foundation/Decimals.lean --- rounding, binary precision and decimal printing.

  A quantity is a rational.  `roundEven` is the nearest integer, the even one of
  two; a binary format keeps so many bits of a quantity (`roundTo`), and a decimal
  print so many digits behind the point (`printFixed`).  Both are `roundEven` of
  the quantity in another unit.

  How long a print is depends on the integer part alone, as long as rounding does
  not carry into it (`length_printFixed`).
-/
import Mathlib.Data.Int.Log
import Mathlib.Data.Rat.Floor
import Mathlib.Tactic.Linarith
import Mathlib.Tactic.NormNum
import Mathlib.Tactic.Positivity

set_option autoImplicit false

namespace IrBridge.Foundation

/-! ## The nearest integer -/

/-- The nearest integer; of two, the even one. -/
def roundEven (q : Rat) : Int :=
  if q - ⌊q⌋ < 1 / 2 then ⌊q⌋
  else if 1 / 2 < q - ⌊q⌋ then ⌊q⌋ + 1
  else if ⌊q⌋ % 2 = 0 then ⌊q⌋
  else ⌊q⌋ + 1

/-- It is one of the two integers around the quantity. -/
theorem roundEven_cases (q : Rat) :
    (roundEven q = ⌊q⌋ ∧ q - ⌊q⌋ ≤ 1 / 2) ∨ (roundEven q = ⌊q⌋ + 1 ∧ 1 / 2 ≤ q - ⌊q⌋) := by
  rw [roundEven]
  split
  · rename_i hdown
    exact .inl ⟨rfl, hdown.le⟩
  · rename_i hnot
    split
    · rename_i hup
      exact .inr ⟨rfl, hup.le⟩
    · rename_i hnot'
      split
      · exact .inl ⟨rfl, not_lt.mp hnot'⟩
      · exact .inr ⟨rfl, not_lt.mp hnot⟩

theorem abs_roundEven_sub_le (q : Rat) : |(roundEven q : Rat) - q| ≤ 1 / 2 := by
  have hfloor := Int.floor_le q
  have hnext := Int.lt_floor_add_one q
  rw [abs_le]
  rcases roundEven_cases q with ⟨hround, hhalf⟩ | ⟨hround, hhalf⟩
  · rw [hround]
    constructor <;> linarith
  · rw [hround, Int.cast_add, Int.cast_one]
    constructor <;> linarith

theorem le_roundEven {q : Rat} {n : Int} (h : (n : Rat) ≤ q) : n ≤ roundEven q := by
  have hfloor : n ≤ ⌊q⌋ := Int.le_floor.mpr h
  rcases roundEven_cases q with ⟨hround, _⟩ | ⟨hround, _⟩ <;> omega

theorem roundEven_le {q : Rat} {n : Int} (h : q ≤ n) : roundEven q ≤ n := by
  rcases roundEven_cases q with ⟨hround, _⟩ | ⟨hround, hhalf⟩
  · rw [hround]
    exact_mod_cast (Int.floor_le q).trans h
  · have hbelow : (⌊q⌋ : Rat) < n := by linarith
    have hlt : ⌊q⌋ < n := by exact_mod_cast hbelow
    omega

/-- Integers stay as they are. -/
theorem roundEven_intCast (n : Int) : roundEven (n : Rat) = n :=
  Int.le_antisymm (roundEven_le (Rat.le_refl)) (le_roundEven (Rat.le_refl))

/-! ## Binary precision -/

/-- The binary places behind the point that a quantity has, if it has `p` bits. -/
def places (p : Nat) (q : Rat) : Int := p - 1 - Int.log 2 q

/-- A positive quantity with `p` bits. -/
def roundTo (p : Nat) (q : Rat) : Rat := roundEven (q * 2 ^ places p q) / 2 ^ places p q

/-- Integers of `p` bits stay as they are. -/
theorem roundTo_natCast {p n : Nat} (hpos : 0 < n) (hn : n < 2 ^ p) :
    roundTo p (n : Rat) = n := by
  have hlog : Nat.log 2 n < p := Nat.log_lt_of_lt_pow (Nat.ne_of_gt hpos) hn
  obtain ⟨k, hk⟩ : ∃ k : Nat, places p (n : Rat) = k := by
    refine ⟨p - 1 - Nat.log 2 n, ?_⟩
    rw [places, Int.log_natCast]
    omega
  have hint : (n : Rat) * 2 ^ places p (n : Rat) = ((n * 2 ^ k : Int) : Rat) := by
    rw [hk, zpow_natCast]
    push_cast
    rfl
  have htwo : (2 : Rat) ^ places p (n : Rat) ≠ 0 := zpow_ne_zero _ two_ne_zero
  rw [roundTo, hint, roundEven_intCast, ← hint, mul_div_assoc, div_self htwo, mul_one]

/-- A quantity below `2 ^ e` loses at most half a unit in the last of its places. -/
theorem abs_roundTo_sub_le (p : Nat) {q : Rat} (hpos : 0 < q) {e : Int} (hq : q < 2 ^ e) :
    |roundTo p q - q| ≤ 2 ^ (e - p - 1) := by
  have hlog : Int.log 2 q < e := (Int.lt_zpow_iff_log_lt one_lt_two hpos).mp hq
  have hscale : (0 : Rat) < 2 ^ places p q := zpow_pos two_pos _
  have hscaled : roundTo p q - q =
      (roundEven (q * 2 ^ places p q) - q * 2 ^ places p q) / 2 ^ places p q := by
    rw [sub_div, mul_div_assoc, div_self hscale.ne', mul_one, roundTo]
  have hunit : (1 / 2 : Rat) / 2 ^ places p q = 2 ^ (-places p q - 1) := by
    rw [zpow_sub₀ two_ne_zero, zpow_neg, zpow_one, div_div, one_div, mul_inv, mul_comm,
      div_eq_mul_inv]
  calc |roundTo p q - q|
      = |(roundEven (q * 2 ^ places p q) : Rat) - q * 2 ^ places p q| / 2 ^ places p q := by
        rw [hscaled, abs_div, abs_of_pos hscale]
    _ ≤ (1 / 2) / 2 ^ places p q :=
        div_le_div_of_nonneg_right (abs_roundEven_sub_le _) hscale.le
    _ = 2 ^ (-places p q - 1) := hunit
    _ ≤ 2 ^ (e - p - 1) := by
        apply zpow_le_zpow_right₀ one_le_two
        rw [places]
        omega

/-! ## Decimal printing -/

/-- `%f`, with so many digits behind the point. -/
def printFixed (digits : Nat) (q : Rat) : List Char :=
  let m := (roundEven (|q| * 10 ^ digits)).toNat
  (if q < 0 then ['-'] else []) ++
    (Nat.toDigits 10 (m / 10 ^ digits) ++
      '.' :: (Nat.toDigits 10 (m % 10 ^ digits)).leftpad digits '0')

/-- A quantity that rounding leaves between `n` and `n + 1` is printed with the
digits of `n` in front of the point. -/
theorem length_printFixed {digits : Nat} (hdigits : 0 < digits) {q : Rat} {n : Nat}
    (hlow : (n : Rat) ≤ q) (hhigh : q * 10 ^ digits ≤ (n + 1) * 10 ^ digits - 1) :
    (printFixed digits q).length = (Nat.toDigits 10 n).length + 1 + digits := by
  have hnonneg : 0 ≤ q := (Nat.cast_nonneg n).trans hlow
  have hunit : 0 < 10 ^ digits := Nat.pow_pos (by decide)
  have hunit' : (0 : Rat) ≤ 10 ^ digits := by positivity
  have hbelow : ((n * 10 ^ digits : Nat) : Int) ≤ roundEven (q * 10 ^ digits) := by
    apply le_roundEven
    push_cast
    exact mul_le_mul_of_nonneg_right hlow hunit'
  have habove : roundEven (q * 10 ^ digits) ≤ (((n + 1) * 10 ^ digits - 1 : Nat) : Int) := by
    apply roundEven_le
    have hcast : ((((n + 1) * 10 ^ digits - 1 : Nat) : Int) : Rat) =
        (n + 1) * 10 ^ digits - 1 := by
      rw [Int.cast_natCast, Nat.cast_sub (Nat.mul_pos n.succ_pos hunit)]
      push_cast
      rfl
    rw [hcast]
    exact hhigh
  obtain ⟨m, hm⟩ : ∃ m : Nat, roundEven (q * 10 ^ digits) = m :=
    ⟨_, (Int.toNat_of_nonneg (by omega)).symm⟩
  rw [hm] at hbelow habove
  have hquot : m / 10 ^ digits = n := by
    have hmul : (n + 1) * 10 ^ digits = n * 10 ^ digits + 10 ^ digits := Nat.succ_mul _ _
    apply Nat.div_eq_of_lt_le
    · exact_mod_cast hbelow
    · rw [hmul] at habove
      rw [Nat.succ_mul]
      omega
  have hrest : (Nat.toDigits 10 (m % 10 ^ digits)).length ≤ digits :=
    (Nat.length_toDigits_le_iff (by decide) hdigits).mpr (Nat.mod_lt _ hunit)
  rw [printFixed, abs_of_nonneg hnonneg, hm, Int.toNat_natCast, hquot, if_neg hnonneg.not_gt,
    List.nil_append, List.length_append, List.length_cons, List.length_leftpad,
    Nat.max_eq_left hrest]
  omega

end IrBridge.Foundation
