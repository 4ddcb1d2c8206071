/-
  Client/CreateFigure.lean --- the measurements the Android client sends.

  `createFigure` computes the check value as the receivers do, complements the
  five values to bytes and sends 39 bits of them.  A check value of 257 does not
  survive the byte: the receivers compute 257 and see 1.  It arises exactly when
  the two bytes of the value add up to 212, 467 or 468.  Every other value is
  received and accepted as sent by receivers that get through the frame.
-/
import IrBridge.Client.Agreement

set_option autoImplicit false

namespace IrBridge.Client

open IrBridge.Foundation
open IrBridge.Codec
open IrBridge.Platform
open IrBridge.Scale

/-! ## The sender -/

/-- `(~x) & 0xFF` on a Java `int`. -/
def complementInt (x : Nat) : BitVec 32 := ~~~(BitVec.ofNat 32 x) &&& 0xFF#32

/-- `(v >> 8) & 0xFF`. -/
def msbOf (v : BitVec 32) : Nat := (v.sshiftRight 8 &&& 0xFF#32).toNat

/-- `(v >> 0) & 0xFF`. -/
def lsbOf (v : BitVec 32) : Nat := (v.sshiftRight 0 &&& 0xFF#32).toNat

/-- The array `data` of `createFigure`. -/
def figureData (v : BitVec 32) : List (BitVec 32) :=
  let trail := 171
  let head := 128
  let msb := msbOf v
  let lsb := lsbOf v
  let check := sumFF (trail + head + msb + lsb)
  [complementInt trail, complementInt head, complementInt msb, complementInt lsb,
    complementInt check]

/-- `Java_com_jdodev_ircodec_IRcodec_Bytes2String`. -/
def nativeBytes2String (array : List (BitVec 32)) (nbbits : Int) :
    Except Fault (Option CString) :=
  if array.length = 0 ∨ nbbits = 0 then .ok none
  else bytes2string (array.map (BitVec.setWidth 8)) nbbits

/-- `Java_com_jdodev_ircodec_IRcodec_Unkn0Encode`.  A word that was never stored
would be copied as it is; `encode_ok` says that there is none. -/
def nativeUnkn0Encode (dm : DataModel) : Option CString → Except Fault (Option (List Byte))
  | none => .ok none
  | some s => do
      let encoded ← unkn0Encode dm s
      match encoded.out with
      | none => return some []
      | some block =>
          if encoded.size = 0 then return some []
          else return some (bytesOf (block.map (·.getD 0#32)))

/-- `createFigure(v)`. -/
def createFigure (dm : DataModel) (v : BitVec 32) : Except Fault (Option (List Byte)) := do
  let bits ← nativeBytes2String (figureData v) 39
  nativeUnkn0Encode dm bits

/-- The same through the blocks of `Bytes2String`. -/
def createFigureIn (dm : DataModel) (alloc : Allocator) (v : BitVec 32) :
    Except Fault (Option (List Byte)) := do
  let bits ← nativeBytes2StringIn dm alloc (some (figureData v)) 39
  nativeUnkn0Encode dm bits

/-- Five words and 39 bits stay inside them. -/
theorem createFigureIn_eq (dm : DataModel) (alloc : Allocator) (v : BitVec 32) :
    createFigureIn dm alloc v = createFigure dm v := by
  have hmax : intMax = 2147483647 := rfl
  have hlen : (figureData v).length = 5 := rfl
  have hcall : ¬ ((figureData v).length = 0 ∨ (39 : Int) = 0) := by omega
  have hfits : sizeofJint * (figureData v).length ≤ ptrdiffMax dm := by
    rw [hlen]
    cases dm <;> decide
  have hbits : nativeBytes2StringIn dm alloc (some (figureData v)) 39 =
      nativeBytes2String (figureData v) 39 := by
    rw [nativeBytes2StringIn_eq dm alloc hcall hfits, nativeBytes2String, if_neg hcall]
    exact bytes2stringIn_eq dm alloc (n := 39) (by decide) (by rw [List.length_map, hlen]; decide)
      (by omega)
  rw [createFigureIn, createFigure, hbits]

/-- The samples `createFigure` sends. -/
def figureSamples (v : BitVec 32) : List Byte :=
  [~~~171#8, ~~~128#8, ~~~(BitVec.ofNat 8 (msbOf v)), ~~~(BitVec.ofNat 8 (lsbOf v)),
    ~~~(BitVec.ofNat 8 (sumFF (299 + (msbOf v + lsbOf v))))]

/-- The bits it sends. -/
def figureBits (v : BitVec 32) : CString :=
  CString.ofBits ((BitPacking.unpack (figureSamples v)).take 39)

theorem strlen_figureBits (v : BitVec 32) : (figureBits v).strlen = 39 := by
  rw [figureBits, CString.strlen_ofBits, List.length_take, BitPacking.length_unpack]
  rfl

theorem setWidth_complementInt (x : Nat) :
    (complementInt x).setWidth 8 = ~~~(BitVec.ofNat 8 x) := by
  apply BitVec.eq_of_getLsbD_eq
  intro i hi
  have hmask : (0xFF#32).getLsbD i = true := by
    have hmask : ∀ i < 8, (0xFF#32).getLsbD i = true := by decide
    exact hmask i hi
  rw [complementInt, BitVec.getLsbD_setWidth, BitVec.getLsbD_and, hmask, BitVec.getLsbD_not,
    BitVec.getLsbD_not, BitVec.getLsbD_ofNat, BitVec.getLsbD_ofNat]
  simp [hi, show i < 32 by omega]

theorem createFigure_eq (dm : DataModel) (v : BitVec 32) :
    createFigure dm v = .ok (some (bytesOf (unkn0Wave.words (figureBits v).chars))) := by
  have hmax : intMax = 2147483647 := rfl
  have hsamples : (figureData v).map (BitVec.setWidth 8) = figureSamples v := by
    simp only [figureData, List.map_cons, List.map_nil, setWidth_complementInt]
    rw [show 171 + 128 + msbOf v + lsbOf v = 299 + (msbOf v + lsbOf v) by omega]
    rfl
  have hbits : nativeBytes2String (figureData v) 39 = .ok (some (figureBits v)) := by
    rw [nativeBytes2String, if_neg (by simp [figureData]), hsamples]
    exact bytes2string_eq_unpack (n := 39) (by decide) (by simp [figureSamples]) (by omega)
  have hhead : unkn0Wave.head.length = 0 := rfl
  have hencode : unkn0Encode dm (figureBits v) =
      .ok ⟨some ((unkn0Wave.words (figureBits v).chars).map some), 316⟩ := by
    have hok := encode_ok dm unkn0Wave (s := figureBits v)
      (by rw [strlen_figureBits]; decide) (by rw [strlen_figureBits, hhead, hmax]; decide)
    rwa [strlen_figureBits] at hok
  rw [createFigure, hbits, ok_bind, nativeUnkn0Encode, hencode, ok_bind]
  simp only [if_neg (by decide : ¬ 316 = 0), List.map_map, pure_eq_ok]
  congr 3

/-! ## The receivers -/

/-- The check value after complement, byte, 39 bits, padding and complement. -/
def wireCheck (check : Nat) : Nat :=
  complement (~~~(BitVec.ofNat 8 check) &&& (BitVec.allOnes 8 <<< 1))

/-- An odd check value comes back unless it needs a ninth bit. -/
theorem wireCheck_eq_iff :
    ∀ check < 258, check % 2 = 1 → (wireCheck check = check ↔ check ≠ 257) := by
  decide +kernel

/-- The check values of trail 171, head 128 and two bytes that sum to `n`. -/
theorem sumFF_figure :
    ∀ n < 511, sumFF (299 + n) < 258 ∧ sumFF (299 + n) % 2 = 1 ∧
      (sumFF (299 + n) = 257 ↔ n = 212 ∨ n = 467 ∨ n = 468) := by
  decide +kernel

theorem msbOf_eq (v : BitVec 32) : msbOf v = v.toNat / 256 % 256 := by
  have hshift : v.sshiftRight 8 &&& 0xFF#32 = v >>> 8 &&& 0xFF#32 := by
    apply BitVec.eq_of_getLsbD_eq
    intro i hi
    by_cases hlow : i < 8
    · rw [BitVec.getLsbD_and, BitVec.getLsbD_and, BitVec.getLsbD_sshiftRight,
        BitVec.getLsbD_ushiftRight]
      simp [show 8 + i < 32 by omega, show ¬ 32 ≤ i by omega]
    · have hmask : ∀ i < 32, ¬ i < 8 → (0xFF#32).getLsbD i = false := by decide
      rw [BitVec.getLsbD_and, BitVec.getLsbD_and, hmask i hi hlow, Bool.and_false,
        Bool.and_false]
  have hmask : (0xFF#32).toNat = 2 ^ 8 - 1 := by decide
  rw [msbOf, hshift, BitVec.toNat_and, hmask, Nat.and_two_pow_sub_one_eq_mod,
    BitVec.toNat_ushiftRight, Nat.shiftRight_eq_div_pow]

theorem lsbOf_eq (v : BitVec 32) : lsbOf v = v.toNat % 256 := by
  have hmask : (0xFF#32).toNat = 2 ^ 8 - 1 := by decide
  rw [lsbOf, BitVec.sshiftRight_zero, BitVec.toNat_and, hmask,
    Nat.and_two_pow_sub_one_eq_mod]

/-- The figure both receivers read. -/
def receivedFigure (v : BitVec 32) : Figure where
  trail := 171
  head := 128
  msb := msbOf v
  lsb := lsbOf v
  check := wireCheck (sumFF (299 + (msbOf v + lsbOf v)))

/-- It carries the low 16 bits of the value. -/
theorem raw_receivedFigure (v : BitVec 32) : (receivedFigure v).raw = v.toNat % 65536 := by
  have hlsb : lsbOf v < 2 ^ 8 := by
    rw [lsbOf_eq]
    omega
  change msbOf v <<< 8 ||| lsbOf v = _
  rw [← Nat.shiftLeft_add_eq_or_of_lt hlsb, Nat.shiftLeft_eq, msbOf_eq, lsbOf_eq]
  omega

theorem receivedFigure_raw (v : BitVec 32) :
    ((receivedFigure v).raw : Int) = v.toInt % 65536 := by
  rw [raw_receivedFigure, BitVec.toInt_eq_toNat_cond]
  split <;> omega

/-- The values whose check value does not fit a byte. -/
def Carries (v : BitVec 32) : Prop :=
  msbOf v + lsbOf v = 212 ∨ msbOf v + lsbOf v = 467 ∨ msbOf v + lsbOf v = 468

/-- What the tests make of the samples: a measurement, unless the check value
was 257. -/
theorem examine_figure (v : BitVec 32) :
    (Carries v → examine (BitPacking.pack (figureBits v).bits) =
      .rejected (receivedFigure v)) ∧
    (¬ Carries v → examine (BitPacking.pack (figureBits v).bits) =
      .accepted (receivedFigure v)) := by
  have hmsb := msbOf_eq v
  have hlsb := lsbOf_eq v
  have hsamples : BitPacking.pack (figureBits v).bits =
      [~~~171#8, ~~~128#8, ~~~(BitVec.ofNat 8 (msbOf v)), ~~~(BitVec.ofNat 8 (lsbOf v)),
        ~~~(BitVec.ofNat 8 (sumFF (299 + (msbOf v + lsbOf v)))) &&&
          (BitVec.allOnes 8 <<< 1)] := by
    have hwhole : ∀ d : Byte, d &&& 0xFF#8 = d := fun d => BitVec.and_allOnes
    rw [figureBits, CString.bits_ofBits,
      BitPacking.pack_take_unpack (by decide) _ (by simp [figureSamples]), figureSamples]
    simp [BitPacking.wordCount, hwhole]
  have hcomplement : ∀ x < 256, complement (~~~(BitVec.ofNat 8 x)) = x := by
    intro x hx
    rw [complement, BitVec.not_not, BitVec.toNat_ofNat]
    exact Nat.mod_eq_of_lt hx
  have hfigure : figureOf (~~~171#8) (~~~128#8) (~~~(BitVec.ofNat 8 (msbOf v)))
      (~~~(BitVec.ofNat 8 (lsbOf v)))
      (~~~(BitVec.ofNat 8 (sumFF (299 + (msbOf v + lsbOf v)))) &&&
        (BitVec.allOnes 8 <<< 1)) = receivedFigure v := by
    unfold figureOf receivedFigure wireCheck
    rw [hcomplement (msbOf v) (by omega), hcomplement (lsbOf v) (by omega)]
    rfl
  have hsum : (receivedFigure v).sum = 299 + (msbOf v + lsbOf v) := by
    change 171 + 128 + msbOf v + lsbOf v = _
    omega
  obtain ⟨hbound, hodd, hcarry⟩ := sumFF_figure (msbOf v + lsbOf v) (by omega)
  have hcheck : sumFF (receivedFigure v).sum = (receivedFigure v).check ↔ ¬ Carries v := by
    rw [hsum, Carries, ← hcarry]
    exact eq_comm.trans (wireCheck_eq_iff _ hbound hodd)
  rw [hsamples, examine]
  simp only [hfigure]
  rw [if_pos (by decide)]
  exact ⟨fun h => if_neg fun heq => hcheck.mp heq h, fun h => if_pos (hcheck.mpr h)⟩

theorem starfritVerdict_figure (v : BitVec 32) :
    starfritVerdict (figureBits v) = examine (BitPacking.pack (figureBits v).bits) := by
  have hlen := strlen_figureBits v
  have hmax : intMax = 2147483647 := rfl
  rw [starfritVerdict, string2bytes_eq_pack (by omega) (by omega), hlen]
  rfl

theorem figureVerdict_figure (v : BitVec 32) :
    figureVerdict (figureBits v) = examine (BitPacking.pack (figureBits v).bits) := by
  have hlen := strlen_figureBits v
  have hmax : intMax = 2147483647 := rfl
  rw [figureVerdict, string2bytes_eq_pack (by omega) (by omega), hlen]
  rfl

instance (v : BitVec 32) : Decidable (Carries v) := inferInstanceAs (Decidable (_ ∨ _ ∨ _))

/-- What the tests make of the figure of a value. -/
def figureOutcome (v : BitVec 32) : Verdict :=
  if Carries v then .rejected (receivedFigure v) else .accepted (receivedFigure v)

theorem examine_figureBits (v : BitVec 32) :
    examine (BitPacking.pack (figureBits v).bits) = figureOutcome v := by
  rw [figureOutcome]
  split
  · rename_i hcarries
    exact (examine_figure v).1 hcarries
  · rename_i hfits
    exact (examine_figure v).2 hfits

/-- The phone makes that of it. -/
theorem figureVerdict_eq (v : BitVec 32) : figureVerdict (figureBits v) = figureOutcome v :=
  (figureVerdict_figure v).trans (examine_figureBits v)

/-- So does the daemon. -/
theorem starfritVerdict_eq (v : BitVec 32) : starfritVerdict (figureBits v) = figureOutcome v :=
  (starfritVerdict_figure v).trans (examine_figureBits v)

/-! ## The result -/

/-- What is heard of a figure: its words played back, and a gap. -/
def figureOnAir (ir : List Byte) (g : Nat) : List LircT := playback (wordsOf ir) ++ [space g]

/-- However the words are cut, the daemon with the globals `s` takes one new frame,
accepts it and reads the value. -/
def DaemonSees (clock : Nat → Int) (s : Starfrit) (v : BitVec 32) (st : DecodeState)
    (words : List LircT) : Prop :=
  ∀ blocks, blocks.flatten = words →
    ∃ st' s' frame f events, starfritBlocksInt clock (st, s) blocks = .ok (st', s') ∧
      s'.trace = s.trace ++ [⟨frame, .accepted f, events⟩] ∧ (f.raw : Int) = v.toInt % 65536

/-- So does the phone with the blocks of `alloc`. -/
def PhoneSees (dm : DataModel) (alloc : Allocator) (v : BitVec 32) (st : DecodeState)
    (words : List LircT) : Prop :=
  ∀ shown blocks, blocks.flatMap JavaBlock.words = words →
    ∃ st' frame f events, figureBlocksIn dm alloc (st, shown) blocks =
        .ok (st', shown ++ [⟨frame, .accepted f, events⟩]) ∧ (f.raw : Int) = v.toInt % 65536

/-- The figure is sent, and each receiver, from any decoder state at a gap, takes one
new frame, accepts it and reads the value. -/
def FigureSeen (dm : DataModel) (alloc : Allocator) (clock : Nat → Int) (s : Starfrit)
    (v : BitVec 32) : Prop :=
  ∃ ir, createFigureIn dm alloc v = .ok (some ir) ∧
    ∀ st, AtGap st → ∀ g, unkn0TS < g → g < 2 ^ 24 →
      DaemonSees clock s v st (figureOnAir ir g) ∧ PhoneSees dm alloc v st (figureOnAir ir g)

/-- Both receivers take the figure's bits as one frame. -/
theorem frames_figureOnAir (v : BitVec 32) {st : DecodeState} (hst : AtGap st) {g : Nat}
    (hgap : unkn0TS < g) (hg : g < 2 ^ 24) :
    (unkn0.wordMachine.run st
      (figureOnAir (bytesOf (unkn0Wave.words (figureBits v).chars)) g)).2 = [figureBits v] := by
  have hlen := strlen_figureBits v
  obtain ⟨final, htakes⟩ := unkn0_takes [(figureBits v, g)] hst
    (by simp [hlen]) (fun f hf => by rw [List.mem_singleton.mp hf]; exact ⟨hgap, hg⟩)
    (List.Forall₂.cons (unkn0OnAir_playback (figureBits v)) .nil)
  have hfirst : firstBits (figureBits v) = figureBits v := by
    have hshort : (figureBits v).bits.length ≤ capacity := by
      rw [CString.length_bits, hlen]
      decide
    rw [firstBits, List.take_of_length_le hshort, figureBits, CString.bits_ofBits]
  have hwords : withGaps [(figureBits v, g)] [playback (unkn0Wave.words (figureBits v).chars)] =
      figureOnAir (bytesOf (unkn0Wave.words (figureBits v).chars)) g := by
    rw [figureOnAir, wordsOf_bytesOf]
    exact List.append_nil _
  rw [receiveFrames_eq_run, hwords] at htakes
  rw [Except.ok.inj htakes, List.map_singleton, hfirst]

/-- 39 bits are five samples. -/
theorem hasRoom_figureBits_iff (alloc : Allocator) (v : BitVec 32) :
    HasRoom alloc (figureBits v) ↔ 20 ≤ alloc.usable 5 := by
  have hmax : intMax = 2147483647 := rfl
  have hint : toInt (39 : Nat) = 39 := toInt_of_range (by omega) (by omega)
  rw [HasRoom, strlen_figureBits, hint]
  exact or_iff_right (by decide)

/-- The daemon's numbers for the one frame. -/
theorem scaleFits_figureBits_iff (clock : Nat → Int) (s : Starfrit) {v : BitVec 32}
    (hcarries : ¬ Carries v) :
    ScaleFits clock s [figureBits v] ↔
      MeasureFits s.measurements (tenths (v.toNat % 65536)) (intClock clock s.timeCalls) := by
  have hverdict : starfritVerdict (figureBits v) = .accepted (receivedFigure v) := by
    rw [starfritVerdict_eq, figureOutcome, if_neg hcarries]
  rw [ScaleFits, Guarded, Guarded, and_iff_left trivial, FrameFits, ← raw_receivedFigure]
  constructor
  · exact fun h => h _ hverdict
  · intro h f hf
    obtain rfl := Verdict.accepted.inj (hverdict.symm.trans hf)
    exact h

/-- What the daemon needs to see the figure. -/
theorem daemonSees_iff (clock : Nat → Int) (s : Starfrit) (v : BitVec 32) {st : DecodeState}
    {words : List LircT} (hframes : (unkn0.wordMachine.run st words).2 = [figureBits v]) :
    DaemonSees clock s v st words ↔ ¬ Carries v ∧
      MeasureFits s.measurements (tenths (v.toNat % 65536)) (intClock clock s.timeCalls) := by
  constructor
  · intro hseen
    obtain ⟨st', s', frame, f, events, hrun, htrace, _⟩ := hseen [words] List.flatten_singleton
    obtain ⟨hscale, hrun⟩ := starfritBlocksInt_ok_iff.mp hrun
    rw [List.flatten_singleton, hframes] at hscale
    rw [starfritBlocks_eq_run, List.flatten_singleton, hframes] at hrun
    have hs' := congrArg Prod.snd (Except.ok.inj hrun)
    dsimp only [List.foldl_cons, List.foldl_nil] at hs'
    have hcarries : ¬ Carries v := by
      intro hcarries
      obtain ⟨events', htrace', _⟩ := starfritFrame_trace (intClock clock) s (figureBits v)
      rw [hs', htrace, starfritVerdict_figure, (examine_figure v).1 hcarries] at htrace'
      have hentry := List.head_eq_of_cons_eq (List.append_cancel_left htrace')
      cases congrArg Processed.verdict hentry
    exact ⟨hcarries, (scaleFits_figureBits_iff clock s hcarries).mp hscale⟩
  · rintro ⟨hcarries, hfits⟩ blocks rfl
    obtain ⟨events, htrace, _⟩ := starfritFrame_trace (intClock clock) s (figureBits v)
    rw [starfritVerdict_figure, (examine_figure v).2 hcarries] at htrace
    have hrun := starfritBlocks_eq_run (intClock clock) st s blocks
    have hscale : ScaleFits clock s (unkn0.wordMachine.run st blocks.flatten).2 := by
      rw [hframes]
      exact (scaleFits_figureBits_iff clock s hcarries).mpr hfits
    rw [hframes] at hrun
    exact ⟨_, _, figureBits v, receivedFigure v, events,
      starfritBlocksInt_ok_iff.mpr ⟨hscale, hrun⟩, htrace, receivedFigure_raw v⟩

/-- What the phone needs. -/
theorem phoneSees_iff (dm : DataModel) (alloc : Allocator) (v : BitVec 32) {st : DecodeState}
    {words : List LircT} (hframes : (unkn0.wordMachine.run st words).2 = [figureBits v])
    (hjava : (4 * words.length : Int) ≤ intMax) :
    PhoneSees dm alloc v st words ↔ ¬ Carries v ∧ 20 ≤ alloc.usable 5 := by
  constructor
  · intro hseen
    obtain ⟨st', frame, f, events, hrun, _⟩ := hseen [] [⟨words, hjava⟩] (List.flatMap_singleton ..)
    obtain ⟨hroom, hrun⟩ := figureBlocksIn_ok_iff.mp hrun
    rw [List.flatMap_singleton, hframes] at hroom
    rw [figureBlocks_eq_run, List.flatMap_singleton, hframes, foldl_figureFrame] at hrun
    refine ⟨fun hcarries => ?_,
      (hasRoom_figureBits_iff alloc v).mp (hroom _ (List.mem_singleton_self _))⟩
    rw [List.map_singleton, figureVerdict_figure, (examine_figure v).1 hcarries] at hrun
    have hentry := List.head_eq_of_cons_eq
      (List.append_cancel_left (congrArg Prod.snd (Except.ok.inj hrun)))
    cases congrArg Displayed.verdict hentry
  · rintro ⟨hcarries, hroom⟩ shown blocks rfl
    have hrun := figureBlocks_eq_run dm st shown blocks
    have hall : ∀ frame ∈ (unkn0.wordMachine.run st (blocks.flatMap JavaBlock.words)).2,
        HasRoom alloc frame := by
      rw [hframes]
      exact List.forall_mem_singleton.mpr ((hasRoom_figureBits_iff alloc v).mpr hroom)
    rw [hframes, foldl_figureFrame, List.map_singleton, figureVerdict_figure,
      (examine_figure v).2 hcarries] at hrun
    exact ⟨_, figureBits v, receivedFigure v, _, figureBlocksIn_ok_iff.mpr ⟨hall, hrun⟩,
      receivedFigure_raw v⟩

/-- The words of a figure fit a Java array. -/
theorem length_figureOnAir (v : BitVec 32) (g : Nat) :
    (4 * (figureOnAir (bytesOf (unkn0Wave.words (figureBits v).chars)) g).length : Int) ≤
      intMax := by
  have hmax : intMax = 2147483647 := rfl
  have hlen : (figureBits v).chars.length = 39 := strlen_figureBits v
  have hhead : unkn0Wave.head.length = 0 := rfl
  rw [figureOnAir, wordsOf_bytesOf, List.length_append, playback, List.length_mapIdx,
    Waveform.length_words, hlen, hhead, List.length_singleton]
  omega

/-- Every measurement the client sends is accepted by both receivers with its value,
exactly when its two bytes do not sum to 212, 467 or 468, the block of five samples
has room for words on the phone, and the date and the count are values of `int` in
the daemon. -/
theorem figureSeen_iff (dm : DataModel) (alloc : Allocator) (clock : Nat → Int) (s : Starfrit)
    (v : BitVec 32) :
    FigureSeen dm alloc clock s v ↔ ¬ Carries v ∧ 20 ≤ alloc.usable 5 ∧
      MeasureFits s.measurements (tenths (v.toNat % 65536)) (intClock clock s.timeCalls) := by
  have hmade := (createFigureIn_eq dm alloc v).trans (createFigure_eq dm v)
  constructor
  · rintro ⟨ir, hir, hseen⟩
    obtain rfl := Option.some.inj (Except.ok.inj (hmade.symm.trans hir))
    have hframes := frames_figureOnAir v .start (by decide : unkn0TS < 77000) (by decide)
    obtain ⟨hdaemon, hphone⟩ := hseen DecodeState.start .start 77000 (by decide) (by decide)
    obtain ⟨hcarries, hfits⟩ := (daemonSees_iff clock s v hframes).mp hdaemon
    obtain ⟨_, hroom⟩ := (phoneSees_iff dm alloc v hframes (length_figureOnAir v _)).mp hphone
    exact ⟨hcarries, hroom, hfits⟩
  · rintro ⟨hcarries, hroom, hfits⟩
    refine ⟨_, hmade, fun st hst g hgap hg => ?_⟩
    have hframes := frames_figureOnAir v hst hgap hg
    exact ⟨(daemonSees_iff clock s v hframes).mpr ⟨hcarries, hfits⟩,
      (phoneSees_iff dm alloc v hframes (length_figureOnAir v _)).mpr ⟨hcarries, hroom⟩⟩

/-- The value 212, 21.2 kg, on a phone whose blocks have room. -/
theorem figureSeen_fails : ¬ FigureSeen .ilp32 .roomy (fun _ => 0) Starfrit.start 212#32 := by
  rw [figureSeen_iff]
  exact fun h => h.1 (Or.inl (by decide))

end IrBridge.Client
