/-
  Client/Agreement.lean --- the daemon and the Android client on one stream.

  Both receivers take the same frames and examine the same samples.  The daemon
  asks for five samples, the Android client for 39 bits.  So they agree on a
  frame unless it has 33 to 38 or 40 bits and passes the other tests.  Beyond that
  each of them has to get through the stream: the block of `String2Bytes` must have
  room for every frame, and the numbers of the daemon must be values of `int`.
  `receivers_agree_iff` says that these are the only ways they differ.
-/
import IrBridge.Client.AndroidBlocks
import IrBridge.Codec.RoundTrip
import IrBridge.Scale.Clock

set_option autoImplicit false

namespace IrBridge.Client

open IrBridge.Foundation
open IrBridge.Codec
open IrBridge.Platform
open IrBridge.Scale

/-- A frame that fills five samples without having 39 bits, and whose samples,
padded with zeros, pass the 0x54 and the check value tests. -/
def DaemonOnly (buff : CString) : Prop :=
  33 ≤ buff.strlen ∧ buff.strlen ≤ 40 ∧ buff.strlen ≠ 39 ∧
    (examine (BitPacking.pack buff.bits)).raw? ≠ none

/-- What a decoder's buffer holds is short. -/
theorem strlen_taken_le (st : DecodeState) : st.taken.strlen ≤ decodeBuffSize := by
  rw [← st.size_eq]
  exact (List.takeWhile_sublist _).length_le

/-- The raw value of the daemon, by length. -/
theorem starfritRaw_eq {buff : CString} (hfits : buff.strlen ≤ decodeBuffSize) :
    starfritRaw buff =
      if 33 ≤ buff.strlen ∧ buff.strlen ≤ 40 then (examine (BitPacking.pack buff.bits)).raw?
      else none := by
  have hsize : decodeBuffSize = 1024 := rfl
  have hmax : intMax = 2147483647 := rfl
  have hverdict : starfritVerdict buff =
      if 33 ≤ buff.strlen ∧ buff.strlen ≤ 40 then examine (BitPacking.pack buff.bits)
      else .other := by
    unfold starfritVerdict
    by_cases hzero : buff.strlen = 0
    · have hnone : string2bytes buff = ⟨none, 0⟩ := by
        unfold string2bytes
        rw [hzero, toInt_of_range (by decide) (by decide)]
        rfl
      rw [hnone, if_neg (by simp), if_neg (by omega)]
    · rw [string2bytes_eq_pack hzero (by omega)]
      simp only [BitPacking.wordCount, Option.getD_some]
      exact if_congr (by omega) rfl rfl
  rw [starfritRaw, hverdict]
  split <;> rfl

/-- The raw value of the Android client, by length. -/
theorem figureRaw_eq (buff : CString) :
    figureRaw buff =
      if buff.strlen = 39 then (examine (BitPacking.pack buff.bits)).raw? else none := by
  have hmax : intMax = 2147483647 := rfl
  have hverdict : figureVerdict buff =
      if buff.strlen = 39 then examine (BitPacking.pack buff.bits) else .other := by
    unfold figureVerdict
    simp only
    split
    · rename_i hlen
      rw [string2bytes_eq_pack (by omega) (by omega), Option.getD_some]
    · rfl
  rw [figureRaw, hverdict]
  split <;> rfl

/-- The receivers agree on every frame that is not of that kind, and on no
other. -/
theorem raw_eq_iff {buff : CString} (hfits : buff.strlen ≤ decodeBuffSize) :
    starfritRaw buff = figureRaw buff ↔ ¬ DaemonOnly buff := by
  rw [starfritRaw_eq hfits, figureRaw_eq, DaemonOnly]
  by_cases hlen : buff.strlen = 39
  · simp [hlen]
  · by_cases hfive : 33 ≤ buff.strlen ∧ buff.strlen ≤ 40
    · rw [if_pos hfive, if_neg hlen]
      simp [hfive, hlen]
    · rw [if_neg hfive, if_neg hlen]
      simp only [true_iff]
      exact fun h => hfive ⟨h.1, h.2.1⟩

/-- Every frame of a run fits the buffer it was taken from. -/
theorem strlen_frames_le (P : Protocol) (st : DecodeState) (ws : List LircT) :
    ∀ buff ∈ (P.wordMachine.run st ws).2, buff.strlen ≤ decodeBuffSize := by
  refine (Transducer.run_invariant P.wordMachine (fun _ => True)
    (fun buff => buff.strlen ≤ decodeBuffSize) (fun st data _ _ => ⟨trivial, ?_⟩)
    trivial).2
  intro buff hbuff
  cases hend : P.endOfFrame (isPulse data) (lenght data) with
  | false =>
      rw [Protocol.step_data hend] at hbuff
      cases hbuff
  | true =>
      rw [Protocol.step_end hend] at hbuff
      split at hbuff
      · rw [List.mem_singleton.mp hbuff]
        exact strlen_taken_le st
      · cases hbuff

/-- Blocks of up to 128 samples with room for words have it for every frame. -/
theorem hasRoom_frames {alloc : Allocator}
    (hroom : ∀ n ≤ 128, sizeofJint * n ≤ alloc.usable n) (P : Protocol) (st : DecodeState)
    (ws : List LircT) : ∀ buff ∈ (P.wordMachine.run st ws).2, HasRoom alloc buff := by
  intro buff hbuff
  have hfits := strlen_frames_le P st ws buff hbuff
  have hmax : intMax = 2147483647 := rfl
  have hint : toInt buff.strlen = buff.strlen :=
    toInt_of_range (Int.natCast_nonneg _) (by rw [decodeBuffSize] at hfits; omega)
  refine .inr (hroom _ ?_)
  rw [hint, Int.toNat_natCast, bytesFor]
  rw [decodeBuffSize] at hfits
  omega

/-- The receivers run on the same blocks from the same decoder state, take the
same frames, and accept the same raw values frame by frame. -/
def SameMeasurements (dm : DataModel) (alloc : Allocator) (clock : Nat → Int)
    (st : DecodeState) (s : Starfrit) (shown : List Displayed) (blocks : List JavaBlock) :
    Prop :=
  ∃ st' s' shown' new new',
    starfritBlocksInt clock (st, s) (blocks.map JavaBlock.words) = .ok (st', s') ∧
    figureBlocksIn dm alloc (st, shown) blocks = .ok (st', shown') ∧
    s'.trace = s.trace ++ new ∧ shown' = shown ++ new' ∧
    new.map (fun p => (p.frame, p.verdict.raw?)) =
      new'.map (fun p => (p.frame, p.verdict.raw?))

/-- On a stream the receivers agree exactly when they agree on each frame the
receive loop takes from it, and get through all of them. -/
theorem sameMeasurements_iff (dm : DataModel) (alloc : Allocator) (clock : Nat → Int)
    (st : DecodeState) (s : Starfrit) (shown : List Displayed) (blocks : List JavaBlock) :
    SameMeasurements dm alloc clock st s shown blocks ↔
      (∀ buff ∈ (unkn0.wordMachine.run st (blocks.flatMap JavaBlock.words)).2,
        ¬ DaemonOnly buff ∧ HasRoom alloc buff) ∧
      ScaleFits clock s (unkn0.wordMachine.run st (blocks.flatMap JavaBlock.words)).2 := by
  have hdaemon := starfritBlocks_eq_run (intClock clock) st s (blocks.map JavaBlock.words)
  have hclient := figureBlocks_eq_run dm st shown blocks
  have hdaemonIn := @starfritBlocksInt_ok_iff clock st s (blocks.map JavaBlock.words)
  have hclientIn := @figureBlocksIn_ok_iff dm alloc st shown blocks
  have hfits := strlen_frames_le unkn0 st (blocks.flatMap JavaBlock.words)
  simp only [← List.flatMap_def] at hdaemon hdaemonIn
  rw [SameMeasurements]
  generalize unkn0.wordMachine.run st (blocks.flatMap JavaBlock.words) = run at *
  obtain ⟨new, htrace, hframes, hverdict⟩ := trace_foldl (intClock clock) s run.2
  rw [foldl_figureFrame] at hclient
  have hnew : new.map (fun p => (p.frame, p.verdict.raw?)) =
      run.2.map fun buff => (buff, starfritRaw buff) := by
    rw [← hframes, List.map_map]
    exact List.map_congr_left fun p hp => by
      simp only [Function.comp, starfritRaw, (hverdict p hp).1]
  have hraw : (new.map (fun p => (p.frame, p.verdict.raw?)) =
      (run.2.map fun frame => (⟨frame, figureVerdict frame,
        screenEvents (figureVerdict frame)⟩ : Displayed)).map
          fun p => (p.frame, p.verdict.raw?)) ↔
      ∀ buff ∈ run.2, ¬ DaemonOnly buff := by
    rw [hnew, List.map_map, List.map_inj_left]
    apply forall₂_congr
    intro buff hbuff
    rw [← raw_eq_iff (hfits buff hbuff), Prod.ext_iff]
    exact and_iff_right rfl
  constructor
  · rintro ⟨st', s', shown', new₁, new₂, hrun₁, hrun₂, htrace₁, hshown, hsame⟩
    obtain ⟨hscale, hrun₁⟩ := hdaemonIn.mp hrun₁
    obtain ⟨hroom, hrun₂⟩ := hclientIn.mp hrun₂
    obtain ⟨rfl, rfl⟩ := Prod.mk.inj (Except.ok.inj (hdaemon.symm.trans hrun₁))
    obtain ⟨-, rfl⟩ := Prod.mk.inj (Except.ok.inj (hclient.symm.trans hrun₂))
    obtain rfl := List.append_cancel_left (htrace.symm.trans htrace₁)
    obtain rfl := List.append_cancel_left hshown
    exact ⟨fun buff hbuff => ⟨hraw.mp hsame buff hbuff, hroom buff hbuff⟩, hscale⟩
  · rintro ⟨hagree, hscale⟩
    exact ⟨_, _, _, new, _, hdaemonIn.mpr ⟨hscale, hdaemon⟩,
      hclientIn.mpr ⟨fun buff hbuff => (hagree buff hbuff).2, hclient⟩, htrace, rfl,
      hraw.mpr fun buff hbuff => (hagree buff hbuff).1⟩

/-- The daemon and the Android client accept the same measurements, for every
string a decoder can hold and for every stream in any blocks from any common
state, exactly as long as no completed frame of 33 to 38 or 40 bits passes the
0x54 and the check value tests, the client's block has room for each completed
frame, and the daemon's numbers are values of `int`. -/
theorem receivers_agree_iff (dm : DataModel) (alloc : Allocator) (clock : Nat → Int) :
    (∀ st : DecodeState, starfritRaw st.taken = figureRaw st.taken ↔ ¬ DaemonOnly st.taken) ∧
    ∀ (st : DecodeState) (s : Starfrit) (shown : List Displayed) (blocks : List JavaBlock),
      ∃ st' frames,
        receiveBlocks unkn0 st (blocks.map JavaBlock.words) = .ok (st', frames) ∧
        (SameMeasurements dm alloc clock st s shown blocks ↔
          (∀ buff ∈ frames, ¬ DaemonOnly buff ∧ HasRoom alloc buff) ∧
            ScaleFits clock s frames) := by
  refine ⟨fun st => raw_eq_iff (strlen_taken_le st), fun st s shown blocks => ?_⟩
  have hframes := receiveBlocks_eq_run unkn0 st (blocks.map JavaBlock.words)
  rw [Transducer.runBlocks_eq_run, ← List.flatMap_def] at hframes
  exact ⟨_, _, hframes, sameMeasurements_iff dm alloc clock st s shown blocks⟩

/-- 88.3 kg in 40 bits instead of 39. -/
def fortyBits : CString :=
  CString.ofBits (BitPacking.unpack [0x54#8, 0x7F#8, 0xFC#8, 0x8C#8, 0x5C#8])

/-- Its words, played back, and a gap. -/
def fortyBitsOnAir : JavaBlock where
  words := withGaps [(fortyBits, 77000)] [playback (unkn0Wave.words fortyBits.chars)]
  java := by decide

/-- The daemon measures it, the Android client does not, although its blocks have
room: as a string, and as a stream from program start. -/
theorem receivers_disagree :
    starfritRaw fortyBits = some 883 ∧ figureRaw fortyBits = none ∧
      ¬ SameMeasurements .ilp32 .roomy (fun _ => 0) DecodeState.start Starfrit.start []
        [fortyBitsOnAir] := by
  have hlen : fortyBits.strlen = 40 := by decide
  have hraw : (examine (BitPacking.pack fortyBits.bits)).raw? = some 883 := by decide
  have hfits : fortyBits.strlen ≤ decodeBuffSize := by
    unfold decodeBuffSize
    omega
  refine ⟨?_, ?_, ?_⟩
  · rw [starfritRaw_eq hfits, hlen, hraw]
    rfl
  · rw [figureRaw_eq, hlen]
    rfl
  · obtain ⟨final, htakes⟩ := unkn0_takes [(fortyBits, 77000)] .start
      (by simp [hlen]) (by simp [unkn0TS])
      (List.Forall₂.cons (unkn0OnAir_playback fortyBits) .nil)
    rw [receiveFrames_eq_run] at htakes
    rw [sameMeasurements_iff, List.flatMap_singleton]
    rintro ⟨hnone, _⟩
    have hfirst : firstBits fortyBits = fortyBits := by decide
    refine (hnone fortyBits ?_).1 ⟨by omega, by omega, by omega, ?_⟩
    · change fortyBits ∈ (unkn0.wordMachine.run DecodeState.start
        (withGaps [(fortyBits, 77000)] [playback (unkn0Wave.words fortyBits.chars)])).2
      rw [Except.ok.inj htakes, List.map_singleton, hfirst]
      exact List.mem_singleton_self _
    · rw [hraw]
      exact Option.some_ne_none 883

end IrBridge.Client
