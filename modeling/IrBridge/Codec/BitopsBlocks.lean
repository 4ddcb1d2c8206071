/-
  Codec/BitopsBlocks.lean --- `string2bytes` and `bytes2string` with the blocks
  they allocate.

  The same two functions as in `Codec/Bitops.lean`, with a check at every element
  that is read or stored.  `string2bytes` stays in its blocks on every string
  (`string2bytesIn_eq`); `bytes2string` does exactly when the array has the bits
  asked for and their number plus one is an `int` (`bytes2stringIn_ok_iff`).
-/
import IrBridge.Codec.Bitops
import IrBridge.Foundation.Blocks

set_option autoImplicit false

namespace IrBridge.Codec

open IrBridge.Foundation
open IrBridge.Platform

/-! ## Allocation -/

/-- The bytes that a block from `malloc` really has, at least those asked for. -/
structure Allocator where
  usable : Nat → Nat
  le_usable : ∀ size, size ≤ usable size

/-- Blocks with no more than the bytes asked for. -/
def Allocator.exact : Allocator := ⟨id, Nat.le_refl⟩

@[simp] theorem Allocator.usable_exact (size : Nat) : Allocator.exact.usable size = size := rfl

/-- Blocks with four times as many. -/
def Allocator.roomy : Allocator :=
  ⟨fun size => 4 * size, fun size => Nat.le_mul_of_pos_left size (Nat.succ_pos 3)⟩

/-- `malloc(size)`: nothing for a size that no object has. -/
def malloc (dm : DataModel) (alloc : Allocator) (size : Nat) : Option Nat :=
  if size ≤ ptrdiffMax dm then some (alloc.usable size) else none

theorem malloc_of_le {dm : DataModel} (alloc : Allocator) {size : Nat}
    (h : size ≤ ptrdiffMax dm) : malloc dm alloc size = some (alloc.usable size) := if_pos h

/-- What an `int` counts is an object on every target. -/
theorem le_ptrdiffMax (dm : DataModel) {size : Nat} (h : (size : Int) ≤ intMax) :
    size ≤ ptrdiffMax dm := by
  have hmax : intMax = 2147483647 := rfl
  cases dm with
  | ilp32 =>
      simp only [ptrdiffMax, DataModel.sizeBits]
      omega
  | lp64 =>
      simp only [ptrdiffMax, DataModel.sizeBits]
      omega

theorem toSize_of_le_ptrdiffMax (dm : DataModel) {n : Nat} (h : n ≤ ptrdiffMax dm) :
    toSize dm n = n := by
  cases dm with
  | ilp32 =>
      simp only [toSize, ptrdiffMax, DataModel.sizeBits] at h ⊢
      omega
  | lp64 =>
      simp only [toSize, ptrdiffMax, DataModel.sizeBits] at h ⊢
      omega

/-- A block that has the bytes is an object, although `malloc` is asked for their
number modulo the size of a `size_t`. -/
theorem le_ptrdiffMax_of_malloc {dm : DataModel} {n size : Nat}
    (hblock : malloc dm .exact (toSize dm n) = some size) (hsize : n ≤ size) :
    n ≤ ptrdiffMax dm := by
  rw [malloc] at hblock
  split at hblock
  · rename_i hobject
    have hself := toSize_le_self dm (Int.natCast_nonneg n)
    have heq : toSize dm n = size := Option.some.inj hblock
    omega
  · cases hblock

/-! ## string2bytes -/

/-- One turn of the loop: `in[i]` is read, and a full sample is stored. -/
def fillTurn (block : Option Nat) (s : CString) (f : Filling) (i : Nat) :
    Except Fault Filling := do
  let c ← readCell .readOutside s.cells i
  if f.b - 1 = 0 then
    access .nullStore .writeOutside block 1 f.out.length
    return fillStep f c
  else return fillStep f c

/-- `string2bytes(in, &out)`. -/
def string2bytesIn (dm : DataModel) (alloc : Allocator) (s : CString) :
    Except Fault Sampled :=
  let nbbits := toInt s.strlen
  if nbbits ≤ 0 then .ok ⟨none, 0⟩
  else do
    let block := malloc dm alloc (toSize dm (nbBytes nbbits))
    let f ← (List.range nbbits.toNat).foldlM (fillTurn block s) ⟨0#8, 8, []⟩
    if f.b ≠ 8 then
      access .nullStore .writeOutside block 1 f.out.length
      return ⟨some (f.out ++ [f.data]), (nbBytes nbbits).toNat⟩
    else return ⟨some f.out, (nbBytes nbbits).toNat⟩

/-- The loop variables after the first `i` characters. -/
theorem filled_take (s : CString) {i : Nat} (hi : i ≤ s.strlen) :
    ((s.chars.take i).foldl fillStep ⟨0#8, 8, []⟩).b = 8 - i % 8 ∧
      ((s.chars.take i).foldl fillStep ⟨0#8, 8, []⟩).out.length = i / 8 := by
  have hstart : Filled ⟨0#8, 8, []⟩ [] := ⟨rfl, rfl, rfl⟩
  have hfilled := filled_foldl hstart (s.chars.take i)
  have hlen : ([] ++ (s.chars.take i).map (· == '1')).length = i := by
    rw [List.nil_append, List.length_map, List.length_take]
    exact Nat.min_eq_left hi
  refine ⟨?_, ?_⟩
  · rw [hfilled.b_eq, hlen]
  · rw [hfilled.out_eq, List.length_map, List.length_range, hlen]

/-- A turn of the loop, with a block for the bytes of `n` characters. -/
theorem fillTurn_eq {size n : Nat} (s : CString) (hsize : BitPacking.wordCount 8 n ≤ size)
    (hn : n ≤ s.strlen) {i : Nat} (hi : i < n) :
    fillTurn (some size) s ((s.chars.take i).foldl fillStep ⟨0#8, 8, []⟩) i =
      .ok ((s.chars.take (i + 1)).foldl fillStep ⟨0#8, 8, []⟩) := by
  have hchars : i < s.chars.length := Nat.lt_of_lt_of_le hi hn
  have hcells : i < s.cells.length := by
    rw [CString.length_cells]
    exact Nat.lt_succ_of_lt hchars
  have hread : s.cells[i] = s.chars[i] := List.getElem_append_left hchars
  obtain ⟨hb, hout⟩ := filled_take s (Nat.le_of_lt hchars)
  have hcount : BitPacking.wordCount 8 n = (n + 7) / 8 := rfl
  have hstep : fillStep ((s.chars.take i).foldl fillStep ⟨0#8, 8, []⟩) s.cells[i] =
      (s.chars.take (i + 1)).foldl fillStep ⟨0#8, 8, []⟩ := by
    rw [hread, List.take_add_one, List.getElem?_eq_getElem hchars, List.foldl_append]
    rfl
  rw [fillTurn, readCell_of_lt hcells, ok_bind]
  split
  · rename_i hfull
    have hstore : access Fault.nullStore .writeOutside (some size) 1
        ((s.chars.take i).foldl fillStep ⟨0#8, 8, []⟩).out.length = .ok () :=
      access_eq_ok_iff.mpr ⟨size, rfl, by omega⟩
    rw [hstore, ok_bind, pure_eq_ok, hstep]
  · rw [pure_eq_ok, hstep]

/-- Every element that `string2bytes` reads or stores is in its block. -/
theorem string2bytesIn_eq (dm : DataModel) (alloc : Allocator) (s : CString) :
    string2bytesIn dm alloc s = .ok (string2bytes s) := by
  rw [string2bytesIn, string2bytes]
  dsimp only
  by_cases hnone : toInt s.strlen ≤ 0
  · rw [if_pos hnone, if_pos hnone]
  · rw [if_neg hnone, if_neg hnone]
    have hmax : intMax = 2147483647 := rfl
    have hself : toInt s.strlen ≤ s.strlen := toInt_le_self (by omega)
    have hint := toInt_le s.strlen
    obtain ⟨n, hn⟩ : ∃ n : Nat, toInt s.strlen = n := ⟨(toInt s.strlen).toNat, by omega⟩
    rw [hn] at hself hint hnone ⊢
    have hcount : BitPacking.wordCount 8 n = (n + 7) / 8 := rfl
    have hblock : malloc dm alloc (toSize dm (nbBytes n)) =
        some (alloc.usable (BitPacking.wordCount 8 n)) := by
      rw [nbBytes_eq, toSize_of_range dm (by omega) (by omega), Int.toNat_natCast]
      exact malloc_of_le alloc (le_ptrdiffMax dm (by omega))
    have hroom : BitPacking.wordCount 8 n ≤ alloc.usable (BitPacking.wordCount 8 n) :=
      alloc.le_usable _
    have hloop : (List.range n).foldlM
        (fillTurn (some (alloc.usable (BitPacking.wordCount 8 n))) s) ⟨0#8, 8, []⟩ =
          .ok ((s.chars.take n).foldl fillStep ⟨0#8, 8, []⟩) :=
      countedLoop_ok (fun i => (s.chars.take i).foldl fillStep ⟨0#8, 8, []⟩)
        fun i hi => fillTurn_eq s hroom (by omega) hi
    obtain ⟨hb, hout⟩ := filled_take s (i := n) (by omega)
    rw [hblock, Int.toNat_natCast, hloop, ok_bind]
    split
    · rename_i hrest
      have hstore : access Fault.nullStore .writeOutside
          (some (alloc.usable (BitPacking.wordCount 8 n))) 1
          ((s.chars.take n).foldl fillStep ⟨0#8, 8, []⟩).out.length = .ok () :=
        access_eq_ok_iff.mpr ⟨_, rfl, by omega⟩
      rw [hstore, ok_bind, pure_eq_ok]
    · rfl

/-! ## bytes2string -/

/-- `out[base + b] = (in[i] & (1 << (7-b))) ? '1' : '0'`, with `base = 8 * i`. -/
def sampleTurn (block : Option Nat) (ds : List Byte) (i : Nat) (out : List Char) (b : Nat) :
    Except Fault (List Char) := do
  let d ← readCell .readOutside ds i
  access .nullStore .writeOutside block 1 (8 * i + b)
  return out ++ [CString.bitChar ((d &&& (1#8 <<< (7 - b))) != 0#8)]

/-- The characters of one sample: `b < 8` and `base + b < nbbits`. -/
def samplesTurn (block : Option Nat) (ds : List Byte) (n : Nat) (out : List Char) (i : Nat) :
    Except Fault (List Char) :=
  (List.range (min 8 (n - 8 * i))).foldlM (sampleTurn block ds i) out

/-- `bytes2string(in, nbbits)`. -/
def bytes2stringIn (dm : DataModel) (alloc : Allocator) (ds : List Byte) (nbbits : Int) :
    Except Fault (Option CString) :=
  if nbbits ≤ 0 then .ok none
  else do
    let size ← signed (nbbits + 1)
    let block := malloc dm alloc (toSize dm size)
    let out ← (List.range (nbBytes nbbits).toNat).foldlM (samplesTurn block ds nbbits.toNat) []
    access .nullStore .writeOutside block 1 nbbits.toNat
    return some (CString.ofBuffer (out ++ ['\x00']))

/-- The turns of one sample of the array. -/
theorem samplesTurn_eq {size n : Nat} (ds : List Byte) (hsize : n ≤ size) (out : List Char)
    {i : Nat} (hi : i < ds.length) :
    samplesTurn (some size) ds n out i = .ok (out ++ sampleChars ds[i] (n - 8 * i)) := by
  have hturns : ∀ b < min 8 (n - 8 * i),
      sampleTurn (some size) ds i
        (out ++ (List.range b).map fun b =>
          CString.bitChar ((ds[i] &&& (1#8 <<< (7 - b))) != 0#8)) b =
        .ok (out ++ (List.range (b + 1)).map fun b =>
          CString.bitChar ((ds[i] &&& (1#8 <<< (7 - b))) != 0#8)) := by
    intro b hb
    have hstore : access Fault.nullStore .writeOutside (some size) 1 (8 * i + b) = .ok () :=
      access_eq_ok_iff.mpr ⟨size, rfl, by omega⟩
    rw [sampleTurn, readCell_of_lt hi, ok_bind, hstore, ok_bind, pure_eq_ok, List.range_succ,
      List.map_append, List.map_singleton, List.append_assoc]
  have hloop := countedLoop_ok _ hturns
  rw [List.range_zero, List.map_nil, List.append_nil] at hloop
  exact hloop

/-- The loop over the first samples of the array. -/
theorem samplesLoop_eq {size n : Nat} (ds : List Byte) (hsize : n ≤ size) {m : Nat}
    (hm : m ≤ ds.length) :
    (List.range m).foldlM (samplesTurn (some size) ds n) [] =
      .ok (((BitPacking.unpack (ds.take m)).take n).map CString.bitChar) := by
  have hturns : ∀ i < m,
      samplesTurn (some size) ds n
        (((BitPacking.unpack (ds.take i)).take n).map CString.bitChar) i =
        .ok (((BitPacking.unpack (ds.take (i + 1))).take n).map CString.bitChar) := by
    intro i hi
    have hlt : i < ds.length := Nat.lt_of_lt_of_le hi hm
    have hlen : (BitPacking.unpack (ds.take i)).length = 8 * i := by
      rw [BitPacking.length_unpack, List.length_take, Nat.min_eq_left (Nat.le_of_lt hlt)]
    have hnext : BitPacking.unpack (ds.take (i + 1)) =
        BitPacking.unpack (ds.take i) ++ BitPacking.unpackWord ds[i] := by
      rw [List.take_add_one, List.getElem?_eq_getElem hlt, BitPacking.unpack,
        List.flatMap_append]
      rfl
    rw [samplesTurn_eq ds hsize _ hlt, sampleChars_eq, hnext, List.take_append, hlen,
      List.map_append]
  have hloop := countedLoop_ok _ hturns
  rw [List.take_zero, BitPacking.unpack_nil, List.take_nil, List.map_nil] at hloop
  exact hloop

/-- With an array that has the bits, every element is in its block. -/
theorem bytes2stringIn_eq (dm : DataModel) (alloc : Allocator) {ds : List Byte} {n : Nat}
    (hpos : 0 < n) (hn : n ≤ 8 * ds.length) (hint : (n : Int) < intMax) :
    bytes2stringIn dm alloc ds n = bytes2string ds n := by
  have hmax : intMax = 2147483647 := rfl
  have hcount : BitPacking.wordCount 8 n = (n + 7) / 8 := rfl
  have hsigned : signed (n + 1) = .ok ((n : Int) + 1) := signed_of_range (by omega) (by omega)
  have hsize : toSize dm ((n : Int) + 1) = n + 1 := by
    rw [toSize_of_range dm (by omega) (by omega)]
    rfl
  have hblock : malloc dm alloc (n + 1) = some (alloc.usable (n + 1)) :=
    malloc_of_le alloc (le_ptrdiffMax dm (by omega))
  have hroom : n + 1 ≤ alloc.usable (n + 1) := alloc.le_usable _
  have hloop : (List.range (BitPacking.wordCount 8 n)).foldlM
      (samplesTurn (some (alloc.usable (n + 1))) ds n) [] =
        .ok (((BitPacking.unpack (ds.take (BitPacking.wordCount 8 n))).take n).map
          CString.bitChar) :=
    samplesLoop_eq ds (Nat.le_of_succ_le hroom) (by omega)
  have hstore : access Fault.nullStore .writeOutside (some (alloc.usable (n + 1))) 1 n = .ok () :=
    access_eq_ok_iff.mpr ⟨_, rfl, by omega⟩
  have hwhole : BitPacking.unpack ds = BitPacking.unpack (ds.take (BitPacking.wordCount 8 n)) ++
      BitPacking.unpack (ds.drop (BitPacking.wordCount 8 n)) := by
    rw [BitPacking.unpack, BitPacking.unpack, BitPacking.unpack, ← List.flatMap_append,
      List.take_append_drop]
  have hfront : (BitPacking.unpack ds).take n =
      (BitPacking.unpack (ds.take (BitPacking.wordCount 8 n))).take n := by
    rw [hwhole, List.take_append_of_le_length]
    rw [BitPacking.length_unpack, List.length_take]
    omega
  have hstring := CString.ofBuffer_bits_padded ((BitPacking.unpack ds).take n) 1
  rw [List.replicate_one, hfront] at hstring
  rw [bytes2string_eq_unpack hpos hn hint, bytes2stringIn, if_neg (by omega), hsigned, ok_bind,
    hsize, hblock, nbBytes_eq, Int.toNat_natCast, Int.toNat_natCast]
  dsimp only
  rw [hloop, ok_bind, hstore, ok_bind, pure_eq_ok, hstring, hfront]

/-- `bytes2string` stays in its blocks if and only if the array has the bits and
an `int` counts them and the NUL. -/
theorem bytes2stringIn_ok_iff (dm : DataModel) (alloc : Allocator) (ds : List Byte)
    (nbbits : Int) :
    (∃ r, bytes2stringIn dm alloc ds nbbits = .ok r) ↔
      nbbits ≤ 8 * ds.length ∧ nbbits < intMax := by
  have hmax : intMax = 2147483647 := rfl
  rcases Int.lt_or_le 0 nbbits with hpos | hnone
  · obtain ⟨n, rfl⟩ := Int.eq_ofNat_of_zero_le (Int.le_of_lt hpos)
    constructor
    · rintro ⟨r, hr⟩
      rw [bytes2stringIn, if_neg (by omega)] at hr
      obtain ⟨size, hsigned, hr⟩ := bind_eq_ok hr
      obtain ⟨out, hloop, _⟩ := bind_eq_ok hr
      have hint : (n : Int) < intMax := by
        unfold signed at hsigned
        split at hsigned
        · omega
        · cases hsigned
      refine ⟨?_, hint⟩
      by_contra hlong
      -- The first sample behind the array is read.
      have hcount : BitPacking.wordCount 8 n = (n + 7) / 8 := rfl
      rw [nbBytes_eq, Int.toNat_natCast, Int.toNat_natCast] at hloop
      obtain ⟨t, u, _, hsamples⟩ := countedLoop_turn hloop (i := ds.length) (by omega)
      obtain ⟨t', u', _, hturn⟩ := countedLoop_turn hsamples (i := 0) (by omega)
      rw [sampleTurn, readCell_of_le (Nat.le_refl _)] at hturn
      cases hturn
    · rintro ⟨hn, hint⟩
      have hbits : n ≤ 8 * ds.length := by omega
      rw [bytes2stringIn_eq dm alloc (by omega) hbits hint,
        bytes2string_eq_unpack (by omega) hbits hint]
      exact ⟨_, rfl⟩
  · rw [bytes2stringIn, if_pos hnone]
    exact ⟨fun _ => ⟨by omega, by omega⟩, fun _ => ⟨none, rfl⟩⟩

end IrBridge.Codec
