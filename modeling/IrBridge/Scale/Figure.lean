/-
  Scale/Figure.lean --- the frame of the bathroom scale.

  A measurement is five samples, sent complemented: a trailer, a head, the two
  bytes of the weight in tenths of a kilogram and a check value.  The daemon and
  the Android client each carry a copy of the code that examines the samples,
  and the Android client a third copy of the check sum to make them.  The copies
  agree in everything but the length test in front, so they are written once
  here; each receiver keeps its own length test.
-/
import IrBridge.Codec.Bitops
import Mathlib.Algebra.Order.Field.Rat
import Mathlib.Tactic.NormNum
import Mathlib.Tactic.Positivity

set_option autoImplicit false

namespace IrBridge.Scale

open IrBridge.Foundation
open IrBridge.Codec
open IrBridge.Platform

/-! ## The check value -/

/-- `(~x) & 0xFF`. -/
def complement (d : Byte) : Nat := (~~~d).toNat

/-- `sumFF`: the low byte of the sum forced odd, plus two when the sum carried
out of a byte.  Nothing masks the result to a byte again. -/
def sumFF (sum : Nat) : Nat :=
  let sumFF := (sum &&& 0xFF) ||| 0x1
  let remain : Int := (sum : Int) - sumFF
  if remain ≥ 256 then sumFF + 2 else sumFF

/-- The complemented samples. -/
structure Figure where
  trail : Nat
  head : Nat
  msb : Nat
  lsb : Nat
  check : Nat
  deriving DecidableEq, Repr

namespace Figure

/-- `sum`. -/
def sum (f : Figure) : Nat := f.trail + f.head + f.msb + f.lsb

/-- `(msb<<8) | lsb`: the weight in tenths. -/
def raw (f : Figure) : Nat := (f.msb <<< 8) ||| f.lsb

end Figure

/-- A raw value in tenths as a weight. -/
def tenths (raw : Nat) : Rat := (raw : Rat) / 10

/-- `(float)((msb<<8) | lsb)/10`, exactly. -/
def Figure.weight (f : Figure) : Rat := tenths f.raw

theorem tenths_inj {a b : Nat} : tenths a = tenths b ↔ a = b := by
  unfold tenths
  rw [div_left_inj' (by norm_num)]
  exact Nat.cast_inj

theorem tenths_eq_zero {raw : Nat} : tenths raw = 0 ↔ raw = 0 := by
  simp [tenths]

/-- No weight is the sentinel. -/
theorem tenths_ne_sentinel (raw : Nat) : tenths raw ≠ -1 := by
  have hnonneg : 0 ≤ tenths raw := by
    unfold tenths
    positivity
  intro h
  rw [h] at hnonneg
  norm_num at hnonneg

/-! ## Examination -/

/-- What a receiver makes of the samples of a completed frame. -/
inductive Verdict where
  /-- not a frame of the scale -/
  | other
  /-- `decoded[0]==0x54`, but the check value is wrong -/
  | rejected (f : Figure)
  /-- a measurement -/
  | accepted (f : Figure)
  deriving DecidableEq, Repr

/-- The raw weight of an accepted frame. -/
def Verdict.raw? : Verdict → Option Nat
  | .accepted f => some f.raw
  | _ => none

/-- The complemented samples of a frame. -/
def figureOf (d0 d1 d2 d3 d4 : Byte) : Figure where
  trail := complement d0
  head := complement d1
  msb := complement d2
  lsb := complement d3
  check := complement d4

/-- `if (decoded[0]==0x54) { ... if (sumFF==check) ... }`, on at least five
samples. -/
def examine : List Byte → Verdict
  | d0 :: d1 :: d2 :: d3 :: d4 :: _ =>
      if d0 = 0x54#8 then
        let f := figureOf d0 d1 d2 d3 d4
        if sumFF f.sum = f.check then .accepted f else .rejected f
      else .other
  | _ => .other

/-- Only frames that start with 0x54 are looked at. -/
theorem examine_eq_other {samples : List Byte} (h : samples.head? ≠ some 0x54#8) :
    examine samples = .other := by
  unfold examine
  split
  · exact if_neg fun hd => h (by rw [List.head?_cons, hd])
  · rfl

theorem exists_samples {samples : List Byte} (hfive : samples.length = 5) :
    ∃ d0 d1 d2 d3 d4, samples = [d0, d1, d2, d3, d4] := by
  obtain ⟨d0, rest, rfl⟩ := List.exists_cons_of_length_eq_add_one hfive
  obtain ⟨d1, rest, rfl⟩ := List.exists_cons_of_length_eq_add_one (Nat.succ.inj hfive)
  obtain ⟨d2, d3, d4, rfl⟩ := List.length_eq_three.mp
    (Nat.succ.inj (Nat.succ.inj hfive) : rest.length = 3)
  exact ⟨d0, d1, d2, d3, d4, rfl⟩

/-- The daemon's test: `string2bytes` fills `n` samples, and `n==5`. -/
def starfritVerdict (buff : CString) : Verdict :=
  let decoded := string2bytes buff
  if decoded.size = 5 then examine (decoded.out.getD []) else .other

/-- The Android client's test: the decoded string has 39 bits. -/
def figureVerdict (decodedbits : CString) : Verdict :=
  let decoded := string2bytes decodedbits
  if decodedbits.strlen = 39 then examine (decoded.out.getD []) else .other

/-- The raw weight of a frame that passes all tests of the daemon. -/
def starfritRaw (buff : CString) : Option Nat := (starfritVerdict buff).raw?

/-- The raw weight of a frame that passes all tests of the Android client. -/
def figureRaw (decodedbits : CString) : Option Nat := (figureVerdict decodedbits).raw?

end IrBridge.Scale
