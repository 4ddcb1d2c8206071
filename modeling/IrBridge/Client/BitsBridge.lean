/-
  Client/BitsBridge.lean --- `String2Bytes` and `Bytes2String`, the Java side of the
  bit conversions.

  Between a Java array of `int` and the samples of `bitops.c` each function goes
  through a block of `jint`.  `String2Bytes` allocates its block with the size of
  a sample for an element and stores four bytes for each, so that it leaves the
  block on every string that has a bit.  `Bytes2String` does not compare the
  number of bits with the length of the array.

  The functions are written with every access checked (`nativeString2Bytes`,
  `nativeBytes2StringIn`).  With blocks that happen to be larger than asked for the
  conversion is lossless (`roundTrip_of_room`).
-/
import IrBridge.Codec.BitopsBlocks
import IrBridge.Codec.Conversion

set_option autoImplicit false

namespace IrBridge.Client

open IrBridge.Foundation
open IrBridge.Codec
open IrBridge.Platform

/-! ## The functions -/

/-- `sizeof(sample_t)`. -/
def sizeofSampleT : Nat := 1

/-- `sizeof(jint)`. -/
def sizeofJint : Nat := 4

/-- `Java_com_jdodev_ircodec_IRcodec_String2Bytes`, on what `GetStringUTFChars`
returns. -/
def nativeString2Bytes (dm : DataModel) (alloc : Allocator) :
    Option CString → Except Fault (Option (List (BitVec 32)))
  | none => .ok none
  | some s => do
      let sampled ← string2bytesIn dm alloc s
      let count := toInt (sampled.size / sizeofSampleT : Nat)
      match sampled.out with
      | none => return some []
      | some out =>
          if count > 0 then
            let out2 := malloc dm alloc (toSize dm (count * sizeofSampleT))
            let stored ← convertLoop .readOutside .nullStore .writeOutside out2 sizeofJint
              (BitVec.setWidth 32) out count.toNat
            return some stored
          else return some []

/-- `Java_com_jdodev_ircodec_IRcodec_Bytes2String`. -/
def nativeBytes2StringIn (dm : DataModel) (alloc : Allocator) :
    Option (List (BitVec 32)) → Int → Except Fault (Option CString)
  | none, _ => .ok none
  | some array, nbbits =>
      let count := array.length
      if count = 0 ∨ nbbits = 0 then .ok none
      else do
        let block := malloc dm alloc (toSize dm (count * sizeofSampleT : Nat))
        let block2 := malloc dm alloc (toSize dm (count * sizeofJint : Nat))
        -- `GetIntArrayRegion`
        let in2 ← convertLoop .readOutside .nullStore .writeOutside block2 sizeofJint id
          array count
        let samples ← convertLoop .readOutside .nullStore .writeOutside block sizeofSampleT
          (BitVec.setWidth 8) in2 count
        bytes2stringIn dm alloc samples nbbits

/-! ## String2Bytes -/

/-- The samples of a string that has bits. -/
theorem string2bytes_some {s : CString} (hpos : 0 < toInt s.strlen) :
    ∃ out, string2bytes s = ⟨some out, bytesFor (toInt s.strlen).toNat⟩ ∧
      out.length = bytesFor (toInt s.strlen).toNat := by
  have hself : toInt s.strlen ≤ s.strlen := toInt_le_self (by omega)
  have hint := toInt_le s.strlen
  obtain ⟨n, hn⟩ : ∃ n : Nat, toInt s.strlen = n := ⟨(toInt s.strlen).toNat, by omega⟩
  rw [hn] at hself hint hpos ⊢
  rw [Int.toNat_natCast]
  -- Only the first `n` characters are read.
  have hlen : (s.take n).strlen = n := by
    show (s.chars.take n).length = n
    rw [List.length_take]
    exact Nat.min_eq_left (by rw [CString.strlen] at hself; omega)
  have harg : toInt (s.take n).strlen = n := by
    rw [hlen]
    exact toInt_of_range (by omega) hint
  have hchars : (s.take n).chars.take n = s.chars.take n := by
    rw [CString.take, List.take_take, Nat.min_self]
  have hsame : string2bytes s = string2bytes (s.take n) := by
    rw [string2bytes, string2bytes, hn, harg]
    dsimp only
    rw [Int.toNat_natCast, hchars]
  have hpack := string2bytes_eq_pack (s := s.take n) (by omega) (by omega)
  refine ⟨BitPacking.pack (s.take n).bits, ?_, ?_⟩
  · rw [hsame, hpack, hlen]
    rfl
  · rw [BitPacking.length_pack, CString.length_bits, hlen]
    rfl

/-- What is left of `String2Bytes` once the samples are there. -/
theorem nativeString2Bytes_eq (dm : DataModel) (alloc : Allocator) {s : CString}
    {out : List Byte} {m : Nat} (h : string2bytes s = ⟨some out, m⟩) (hpos : 0 < m)
    (hint : (m : Int) ≤ intMax) :
    nativeString2Bytes dm alloc (some s) = (do
      let stored ← convertLoop .readOutside .nullStore .writeOutside (some (alloc.usable m))
        sizeofJint (BitVec.setWidth 32) out m
      return some stored) := by
  have hmax : intMax = 2147483647 := rfl
  have hcount : toInt (m / sizeofSampleT : Nat) = m := by
    rw [sizeofSampleT, Nat.div_one]
    exact toInt_of_range (by omega) hint
  have hsize : toSize dm ((m : Int) * sizeofSampleT) = m := by
    rw [sizeofSampleT, Int.natCast_one, Int.mul_one, toSize_of_range dm (by omega) (by omega)]
    rfl
  rw [nativeString2Bytes, string2bytesIn_eq, ok_bind, h]
  dsimp only
  rw [hcount, if_pos (by omega), hsize, malloc_of_le alloc (le_ptrdiffMax dm hint),
    Int.toNat_natCast]

theorem nativeString2Bytes_nothing (dm : DataModel) (alloc : Allocator) {s : CString}
    (hnone : toInt s.strlen ≤ 0) : nativeString2Bytes dm alloc (some s) = .ok (some []) := by
  have hsampled : string2bytes s = ⟨none, 0⟩ := if_pos hnone
  rw [nativeString2Bytes, string2bytesIn_eq, ok_bind, hsampled]
  dsimp only
  rw [pure_eq_ok]

/-- The string has no bits, or the block of samples has room for words. -/
def HasRoom (alloc : Allocator) (s : CString) : Prop :=
  toInt s.strlen ≤ 0 ∨
    sizeofJint * bytesFor (toInt s.strlen).toNat ≤ alloc.usable (bytesFor (toInt s.strlen).toNat)

/-- Then the array holds the samples. -/
theorem nativeString2Bytes_of_room (dm : DataModel) {alloc : Allocator} {s : CString}
    (h : HasRoom alloc s) :
    nativeString2Bytes dm alloc (some s) =
      .ok (some (((string2bytes s).out.getD []).map (BitVec.setWidth 32))) := by
  rcases Int.lt_or_le 0 (toInt s.strlen) with hpos | hnone
  · obtain ⟨out, hsampled, hlen⟩ := string2bytes_some hpos
    have hint := toInt_le s.strlen
    have hcount : bytesFor (toInt s.strlen).toNat = ((toInt s.strlen).toNat + 7) / 8 := rfl
    have hroom := h.resolve_left (Int.not_le.mpr hpos)
    rw [nativeString2Bytes_eq dm alloc hsampled (by omega) (by omega),
      convertLoop_ok _ (Nat.le_of_eq hlen.symm) hroom, ok_bind, pure_eq_ok, hsampled, ← hlen,
      List.take_length]
    rfl
  · have hsampled : string2bytes s = ⟨none, 0⟩ := if_pos hnone
    rw [nativeString2Bytes_nothing dm alloc hnone, hsampled]
    rfl

/-- `String2Bytes` stays in its blocks exactly then. -/
theorem nativeString2Bytes_ok_iff (dm : DataModel) (alloc : Allocator) (s : CString) :
    (∃ r, nativeString2Bytes dm alloc (some s) = .ok r) ↔ HasRoom alloc s := by
  refine ⟨?_, fun hroom => ⟨_, nativeString2Bytes_of_room dm hroom⟩⟩
  rintro ⟨r, hr⟩
  rcases Int.lt_or_le 0 (toInt s.strlen) with hpos | hnone
  · obtain ⟨out, hsampled, hlen⟩ := string2bytes_some hpos
    have hint := toInt_le s.strlen
    have hcount : bytesFor (toInt s.strlen).toNat = ((toInt s.strlen).toNat + 7) / 8 := rfl
    rw [nativeString2Bytes_eq dm alloc hsampled (by omega) (by omega)] at hr
    obtain ⟨stored, hloop, _⟩ := bind_eq_ok hr
    rcases (convertLoop_ok_iff _ (Nat.le_of_eq hlen.symm)).mp ⟨stored, hloop⟩ with
      hzero | ⟨size, hblock, hsize⟩
    · omega
    · exact .inr (Option.some.inj hblock ▸ hsize)
  · exact .inl hnone

/-- A block that is as large as asked for has room for nothing. -/
theorem hasRoom_exact_iff (s : CString) : HasRoom .exact s ↔ toInt s.strlen ≤ 0 := by
  refine or_iff_left_of_imp ?_
  rw [Allocator.usable_exact, sizeofJint, bytesFor]
  omega

/-! ## Bytes2String -/

/-- An array whose words are an object gets both its blocks. -/
theorem nativeBytes2StringIn_eq (dm : DataModel) (alloc : Allocator) {array : List (BitVec 32)}
    {nbbits : Int} (hcall : ¬ (array.length = 0 ∨ nbbits = 0))
    (hfits : sizeofJint * array.length ≤ ptrdiffMax dm) :
    nativeBytes2StringIn dm alloc (some array) nbbits =
      bytes2stringIn dm alloc (array.map (BitVec.setWidth 8)) nbbits := by
  have hlen : array.length ≤ ptrdiffMax dm := by
    rw [sizeofJint] at hfits
    omega
  have hblock : malloc dm alloc (toSize dm (array.length * sizeofSampleT : Nat)) =
      some (alloc.usable array.length) := by
    rw [sizeofSampleT, Nat.mul_one, toSize_of_le_ptrdiffMax dm hlen]
    exact malloc_of_le alloc hlen
  have hblock2 : malloc dm alloc (toSize dm (array.length * sizeofJint : Nat)) =
      some (alloc.usable (sizeofJint * array.length)) := by
    rw [Nat.mul_comm, toSize_of_le_ptrdiffMax dm hfits]
    exact malloc_of_le alloc hfits
  have hroom := alloc.le_usable array.length
  have hroom2 := alloc.le_usable (sizeofJint * array.length)
  have hcopy : convertLoop Fault.readOutside .nullStore .writeOutside
      (some (alloc.usable (sizeofJint * array.length))) sizeofJint id array array.length =
        .ok array := by
    rw [convertLoop_ok id (Nat.le_refl _) hroom2, List.take_length, List.map_id]
  have hnarrow : convertLoop Fault.readOutside .nullStore .writeOutside
      (some (alloc.usable array.length)) sizeofSampleT (BitVec.setWidth 8) array array.length =
        .ok (array.map (BitVec.setWidth 8)) := by
    rw [convertLoop_ok _ (Nat.le_refl _) (by rw [sizeofSampleT, Nat.one_mul]; exact hroom),
      List.take_length]
  rw [nativeBytes2StringIn]
  dsimp only
  rw [if_neg hcall, hblock, hblock2, hcopy, ok_bind, hnarrow, ok_bind]

/-- `Bytes2String` stays in its blocks if and only if it has nothing to do, or the
words of the array are an object, the array has the bits, and an `int` counts
them and the NUL. -/
theorem nativeBytes2StringIn_ok_iff (dm : DataModel) (array : List (BitVec 32)) (nbbits : Int) :
    (∃ r, nativeBytes2StringIn dm .exact (some array) nbbits = .ok r) ↔
      (array.length = 0 ∨ nbbits = 0) ∨
        (sizeofJint * array.length ≤ ptrdiffMax dm ∧ nbbits ≤ 8 * array.length ∧
          nbbits < intMax) := by
  by_cases hcall : array.length = 0 ∨ nbbits = 0
  · rw [nativeBytes2StringIn]
    dsimp only
    rw [if_pos hcall]
    exact ⟨fun _ => .inl hcall, fun _ => ⟨none, rfl⟩⟩
  · by_cases hfits : sizeofJint * array.length ≤ ptrdiffMax dm
    · rw [nativeBytes2StringIn_eq dm .exact hcall hfits, bytes2stringIn_ok_iff, List.length_map]
      exact ⟨fun h => .inr ⟨hfits, h⟩, fun h => (h.resolve_left hcall).2⟩
    · constructor
      · rintro ⟨r, hr⟩
        rw [nativeBytes2StringIn] at hr
        dsimp only at hr
        rw [if_neg hcall] at hr
        obtain ⟨in2, hcopy, _⟩ := bind_eq_ok hr
        rcases (convertLoop_ok_iff id (Nat.le_refl _)).mp ⟨in2, hcopy⟩ with
          hzero | ⟨size, hblock, hsize⟩
        · exact absurd (.inl hzero) hcall
        · rw [Nat.mul_comm array.length] at hblock
          exact absurd (le_ptrdiffMax_of_malloc hblock hsize) hfits
      · rintro (h | ⟨h, _⟩)
        · exact absurd h hcall
        · exact absurd h hfits

/-! ## There and back -/

/-- The array comes back as its low bytes, as far as there are bits. -/
def RoundTrip (dm : DataModel) (alloc : Allocator) (array : List (BitVec 32)) (nbbits : Int) :
    Prop :=
  1 ≤ nbbits → nbbits ≤ 8 * array.length →
    (do
      let s ← nativeBytes2StringIn dm alloc (some array) nbbits
      nativeString2Bytes dm alloc s) =
      .ok (some ((leadingBytes (array.map (BitVec.setWidth 8)) nbbits.toNat).map
        (BitVec.setWidth 32)))

/-- A block of samples with room for words makes the conversion lossless. -/
theorem roundTrip_of_room (dm : DataModel) (alloc : Allocator) {array : List (BitVec 32)}
    {nbbits : Int} (hfits : sizeofJint * array.length ≤ ptrdiffMax dm) (hint : nbbits < intMax)
    (hroom : sizeofJint * bytesFor nbbits.toNat ≤ alloc.usable (bytesFor nbbits.toNat)) :
    RoundTrip dm alloc array nbbits := by
  intro hone hbits
  have hmax : intMax = 2147483647 := rfl
  obtain ⟨n, rfl⟩ := Int.eq_ofNat_of_zero_le (Int.le_trans (by omega) hone)
  rw [Int.toNat_natCast] at hroom ⊢
  have hcount : bytesFor n = (n + 7) / 8 := rfl
  have hn : n ≤ 8 * (array.map (BitVec.setWidth 8)).length := by
    rw [List.length_map]
    omega
  obtain ⟨s, hstring, hlen, _, hsampled, hlength⟩ := bytesConvert_of_lt (by omega) hn hint
  rw [toInt_of_range (by omega) (by omega)] at hstring
  rw [nativeBytes2StringIn_eq dm alloc (by omega) hfits,
    bytes2stringIn_eq dm alloc (by omega) hn hint, hstring, ok_bind,
    nativeString2Bytes_eq dm alloc hsampled (by omega) (by omega),
    convertLoop_ok _ (Nat.le_of_eq hlength.symm) hroom, ok_bind, pure_eq_ok, ← hlength,
    List.take_length]

/-- With the block as it is asked for it never succeeds: the string has a bit. -/
theorem not_roundTrip (dm : DataModel) {array : List (BitVec 32)} {nbbits : Int}
    (hone : 1 ≤ nbbits) (hbits : nbbits ≤ 8 * array.length) :
    ¬ RoundTrip dm .exact array nbbits := by
  intro hround
  have hmax : intMax = 2147483647 := rfl
  obtain ⟨s, hstring, hback⟩ := bind_eq_ok (hround hone hbits)
  have hcall : ¬ (array.length = 0 ∨ nbbits = 0) := by omega
  obtain ⟨hfits, _, hint⟩ := ((nativeBytes2StringIn_ok_iff dm array nbbits).mp
    ⟨s, hstring⟩).resolve_left hcall
  obtain ⟨n, rfl⟩ := Int.eq_ofNat_of_zero_le (Int.le_trans (by omega) hone)
  have hn : n ≤ 8 * (array.map (BitVec.setWidth 8)).length := by
    rw [List.length_map]
    omega
  rw [nativeBytes2StringIn_eq dm .exact hcall hfits,
    bytes2stringIn_eq dm .exact (by omega) hn hint,
    bytes2string_eq_unpack (by omega) hn hint] at hstring
  obtain rfl := Except.ok.inj hstring
  have hlen : (CString.ofBits ((BitPacking.unpack (array.map (BitVec.setWidth 8))).take n)).strlen =
      n := by
    rw [CString.strlen_ofBits, List.length_take, BitPacking.length_unpack, Nat.min_eq_left hn]
  have harg : toInt n = n := toInt_of_range (by omega) (by omega)
  rcases (nativeString2Bytes_ok_iff dm .exact _).mp ⟨_, hback⟩ with hnone | hroom
  · rw [hlen, harg] at hnone
    omega
  · rw [hlen, harg, Int.toNat_natCast] at hroom
    rw [Allocator.usable_exact, sizeofJint, bytesFor] at hroom
    omega

/-! ## Main result -/

/-- Everything `String2Bytes` reads or stores is in its block, counted in the bytes
passed to `malloc`. -/
def StringInBounds (dm : DataModel) (s : Option CString) : Prop :=
  ∃ r, nativeString2Bytes dm .exact s = .ok r

/-- The same for `Bytes2String`. -/
def ArrayInBounds (dm : DataModel) (array : Option (List (BitVec 32))) (nbbits : Int) : Prop :=
  ∃ r, nativeBytes2StringIn dm .exact array nbbits = .ok r

/-- When the bridge stays in its blocks, and when it is lossless. -/
theorem bitsBridge_iff (dm : DataModel) (s : Option CString) (array : Option (List (BitVec 32)))
    (nbbits : Int) :
    (StringInBounds dm s ↔ ∀ t ∈ s, toInt t.strlen ≤ 0) ∧
    (ArrayInBounds dm array nbbits ↔ ∀ a ∈ array, (a.length = 0 ∨ nbbits = 0) ∨
      (sizeofJint * a.length ≤ ptrdiffMax dm ∧ nbbits ≤ 8 * a.length ∧ nbbits < intMax)) ∧
    ((∀ a ∈ array, RoundTrip dm .exact a nbbits) ↔
      ∀ a ∈ array, ¬ (1 ≤ nbbits ∧ nbbits ≤ 8 * a.length)) := by
  refine ⟨?_, ?_, ?_⟩
  · cases s with
    | none => exact ⟨fun _ t ht => (by cases ht), fun _ => ⟨none, rfl⟩⟩
    | some t =>
        rw [StringInBounds, nativeString2Bytes_ok_iff, hasRoom_exact_iff]
        constructor
        · intro hin t' ht
          rwa [← Option.some.inj ht]
        · exact fun h => h t rfl
  · cases array with
    | none => exact ⟨fun _ a ha => (by cases ha), fun _ => ⟨none, rfl⟩⟩
    | some a =>
        rw [ArrayInBounds, nativeBytes2StringIn_ok_iff]
        constructor
        · intro hin a' ha
          rw [← Option.some.inj ha]
          exact hin
        · exact fun h => h a rfl
  · constructor
    · intro h a ha hbits
      exact not_roundTrip dm hbits.1 hbits.2 (h a ha)
    · intro h a ha hone hbits
      exact absurd ⟨hone, hbits⟩ (h a ha)

/-- The string `1`, and nine bits of one element. -/
theorem bitsBridge_fails :
    ¬ StringInBounds .ilp32 (some (CString.ofBits [true])) ∧
      ¬ ArrayInBounds .ilp32 (some [0#32]) 9 := by
  have hstrlen : (CString.ofBits [true]).strlen = 1 := rfl
  have harg : toInt (1 : Nat) = 1 := toInt_of_range (by decide) (by decide)
  constructor
  · rintro ⟨r, hr⟩
    have hcases := (nativeString2Bytes_ok_iff .ilp32 .exact _).mp ⟨r, hr⟩
    rw [HasRoom, hstrlen, harg] at hcases
    exact absurd hcases (by decide)
  · rintro ⟨r, hr⟩
    exact absurd ((nativeBytes2StringIn_ok_iff .ilp32 [0#32] 9).mp ⟨r, hr⟩) (by decide)

end IrBridge.Client
