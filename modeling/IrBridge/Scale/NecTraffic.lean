/-
  Scale/NecTraffic.lean --- NEC frames seen by the daemon.

  The daemon only knows UNKN0 frames, but hears NEC traffic as well.  For the
  UNKN0 decoder the NEC header space is a `1` and no word of the frame is a
  delimiter, so that a NEC frame with whatever follows it is a piece of a marked
  stream.  However the gaps glue or split the frames, each frame the daemon
  takes then starts with a `1`, and 0x54 starts with a `0`.

  The mark needs the frame to be there.  `nec_encode` keeps the length of its
  string in an `int`: where that is not positive it returns no words at all for
  a string that is not empty, and the gaps alone can spell anything.  Where it is
  too long for the size of the words to be an `int`, it does not return.
-/
import IrBridge.Codec.RoundTrip
import IrBridge.Scale.Clock

set_option autoImplicit false

namespace IrBridge.Scale

open IrBridge.Foundation
open IrBridge.Codec
open IrBridge.Platform

/-! ## The traffic -/

/-- The words `nec_encode` returned for `s`; none with the null pointer. -/
def NecFrame (dm : DataModel) (s : CString) (ws : List LircT) : Prop :=
  ∃ e, necEncode dm s = .ok e ∧ e.out.getD [] = ws.map some

/-- Strings with the gaps after them, encoded and played back. -/
def NecTraffic (dm : DataModel) (frames : List (CString × Nat)) (ws : List LircT) : Prop :=
  ∃ blocks, List.Forall₂ (fun f block => NecFrame dm f.1 block) frames blocks ∧
    ws = withGaps frames (blocks.map playback)

/-- `n==5` and `decoded[0]==0x54`. -/
def PassesTrailer (buff : CString) : Prop :=
  (string2bytes buff).size = 5 ∧ ((string2bytes buff).out.getD []).head? = some 0x54#8

/-- The daemon processes the blocks from a reset decoder without a frame passing
the first test, without a push and without touching the measurements. -/
def NeverMeasured (clock : Nat → Int) (st : DecodeState) (s : Starfrit)
    (blocks : List (List LircT)) : Prop :=
  ∃ st' s' new, starfritBlocksInt clock (unkn0DecodeReset st, s) blocks = .ok (st', s') ∧
    s'.measurements = s.measurements ∧ s'.trace = s.trace ++ new ∧
    ∀ p ∈ new, ¬ PassesTrailer p.frame ∧ p.events = []

/-! ## Pieces -/

/-- A NEC frame read by the UNKN0 decoder: silence, the mark, the body. -/
theorem classify_nec_playback (s : CString) :
    (playback (necWave.words s.chars)).map unkn0.classify =
      .neutral :: .datum true :: bodySymbols s := by
  obtain ⟨bits, hbits, heq⟩ := bitsOnAir_playback necWave
    (fun _ => True) (· ≤ unkn0TD) (fun d => unkn0TD < d ∧ d ≤ unkn0TS)
    (by decide) (by decide) trivial (by decide) (by decide) s.chars
  have hdata := unkn0_classify_bits hbits
  have hpulse : unkn0.classify (necTheadPulse ||| pulseBit) = .neutral :=
    unkn0_classify_pulse (isPulse_or_pulseBit _)
  have hspace : unkn0.classify necTheadSpace = .datum true :=
    Protocol.classify_space (by decide) (by decide)
  have htail : unkn0.classify (necWave.t0 ||| pulseBit) = .neutral :=
    unkn0_classify_pulse (isPulse_or_pulseBit _)
  change (playback (necTheadPulse :: necTheadSpace ::
    (s.chars.flatMap necWave.bit ++ [necT0]))).map unkn0.classify = _
  rw [playback_cons_cons, List.map_cons, List.map_cons, hpulse, hspace]
  change _ :: _ :: (playback (s.chars.flatMap necWave.bit ++ [necWave.t0])).map _ = _
  rw [heq, List.map_append, hdata, List.map_singleton, htail]
  rfl

/-- What `nec_encode` returns for a length that is positive as an `int`. -/
theorem NecFrame.words {dm : DataModel} {s : CString} {ws : List LircT}
    (h : NecFrame dm s ws) (hint : 0 < toInt s.strlen) :
    ws = necWave.words (s.take (toInt s.strlen).toNat).chars := by
  obtain ⟨e, henc, hout⟩ := h
  rcases encode_cases henc with ⟨hzero, _⟩ | ⟨_, hwords, _⟩
  · exact absurd hint (Int.not_lt.mpr hzero)
  · rw [hwords] at hout
    exact (List.map_injective_iff.mpr (Option.some_injective _) hout).symm

/-- For any other length that it returns with, it returns nothing. -/
theorem NecFrame.eq_nil {dm : DataModel} {s : CString} {ws : List LircT}
    (h : NecFrame dm s ws) (hint : toInt s.strlen ≤ 0) : ws = [] := by
  obtain ⟨e, henc, hout⟩ := h
  rcases encode_cases henc with ⟨_, rfl⟩ | ⟨hpos, _⟩
  · exact (List.map_eq_nil_iff.mp hout.symm)
  · omega

/-- It does not return with more words than an `int` counts the bytes of. -/
theorem NecFrame.length_le {dm : DataModel} {s : CString} {ws : List LircT}
    (h : NecFrame dm s ws) : toInt s.strlen ≤ 2 ^ 28 - 2 := by
  have hmax : intMax = 2147483647 := rfl
  have hhead : necWave.head.length = 2 := rfl
  have hfour : sizeofLircT = 4 := rfl
  have hchars : s.chars.length = s.strlen := rfl
  have hself := toInt_le_self (x := s.strlen) (by omega)
  obtain ⟨e, henc, _⟩ := h
  have hsize := encode_size_le dm necWave henc
  rcases encode_cases henc with ⟨hzero, _⟩ | ⟨hpos, _, hbytes⟩
  · omega
  · rw [hbytes, Waveform.length_words, CString.take, List.length_take,
      Nat.min_eq_left (by omega), hhead, hfour] at hsize
    omega

/-- It returns for every length in between. -/
theorem necFrame_of_length (dm : DataModel) {s : CString} (hpos : 0 < toInt s.strlen)
    (hle : toInt s.strlen ≤ 2 ^ 28 - 2) : ∃ ws, NecFrame dm s ws := by
  have hmax : intMax = 2147483647 := rfl
  have hhead : necWave.head.length = 2 := rfl
  have hall : s.chars.length = s.strlen := rfl
  have hself := toInt_le_self (x := s.strlen) (by omega)
  obtain ⟨n, hn⟩ : ∃ n : Nat, toInt s.strlen = n := ⟨(toInt s.strlen).toNat, by omega⟩
  -- Only the first `n` characters are read.
  have hlen : (s.take n).strlen = n := by
    show (s.chars.take n).length = n
    rw [List.length_take]
    exact Nat.min_eq_left (by omega)
  have harg : toInt (s.take n).strlen = n := by
    rw [hlen]
    exact toInt_of_range (by omega) (by omega)
  have hchars : (s.take n).chars.take n = s.chars.take n := by
    rw [CString.take, List.take_take, Nat.min_self]
  have hsame : necEncode dm s = necEncode dm (s.take n) := by
    rw [necEncode, necEncode, encode, encode, hn, harg, Int.toNat_natCast, hchars]
  exact ⟨_, _, hsame.trans (encode_ok dm necWave (by omega) (by rw [hlen, hhead]; omega)), rfl⟩

/-- So the traffic is a marked stream. -/
theorem classify_traffic {dm : DataModel} {frames : List (CString × Nat)}
    {ws : List LircT} (hint : ∀ f ∈ frames, 0 < toInt f.1.strlen)
    (htraffic : NecTraffic dm frames ws) :
    ∃ pieces : List (List (Symbol Bool) × Symbol Bool),
      (∀ p ∈ pieces, Framing.NoDelimiter p.1) ∧
        ws.map unkn0.classify =
          pieces.flatMap fun p => Framing.markedPiece true 1 p.1 p.2 := by
  obtain ⟨blocks, hblocks, rfl⟩ := htraffic
  induction hblocks with
  | nil => exact ⟨[], by simp, rfl⟩
  | @cons f block frames blocks hblock _ ih =>
      obtain ⟨pieces, hpieces, hrest⟩ := ih fun f' hf' => hint f' (List.mem_cons_of_mem f hf')
      generalize hbody : f.1.take (toInt f.1.strlen).toNat = body
      have hwords : block = necWave.words body.chars := by
        rw [hblock.words (hint f List.mem_cons_self), hbody]
      refine ⟨(bodySymbols body, unkn0.classify (space f.2)) :: pieces, ?_, ?_⟩
      · intro p hp
        rcases List.mem_cons.mp hp with rfl | hp
        · exact noDelimiter_bodySymbols body
        · exact hpieces p hp
      · have hcons : withGaps (f :: frames) ((block :: blocks).map playback) =
            (playback block ++ [space f.2]) ++ withGaps frames (blocks.map playback) := rfl
        rw [hcons, List.map_append, hrest, List.map_append, hwords, classify_nec_playback,
          List.flatMap_cons]
        rfl

/-! ## Frames that start with a one -/

/-- A byte whose first bit is a `1` is not 0x54. -/
theorem packWord_ne_trailer (bits : List Bool) :
    (BitPacking.packWord (true :: bits) : Byte) ≠ 0x54#8 := by
  intro h
  have hbit : (BitPacking.packWord (true :: bits) : Byte).getLsbD 7 = true := by
    rw [BitPacking.getLsbD_packWord _ (by omega)]
    rfl
  rw [h] at hbit
  exact absurd hbit (by decide)

/-- The samples of a frame that fits the decode buffer. -/
theorem string2bytes_ofBits {bits : List Bool} (hne : bits ≠ [])
    (hfits : bits.length ≤ capacity) :
    string2bytes (CString.ofBits bits) =
      ⟨some (BitPacking.pack bits), BitPacking.wordCount 8 bits.length⟩ := by
  have hcap : capacity = 1022 := rfl
  have hmax : intMax = 2147483647 := rfl
  have hlen : bits.length ≠ 0 := fun h => hne (List.length_eq_zero_iff.mp h)
  have hpack := string2bytes_eq_pack (s := CString.ofBits bits)
    (by rwa [CString.strlen_ofBits]) (by rw [CString.strlen_ofBits]; omega)
  rwa [CString.bits_ofBits, CString.strlen_ofBits] at hpack

/-- Frames that start with a `1` fail the first test. -/
theorem not_passesTrailer {bits : List Bool} (hmark : bits.head? = some true)
    (hfits : bits.length ≤ capacity) : ¬ PassesTrailer (CString.ofBits bits) := by
  cases bits with
  | nil => cases hmark
  | cons b bits =>
      obtain rfl := Option.some.inj hmark
      rintro ⟨hsize, htrailer⟩
      rw [string2bytes_ofBits (List.cons_ne_nil _ _) hfits] at hsize htrailer
      simp only [Option.getD_some] at hsize htrailer
      have hpos : 0 < BitPacking.wordCount 8 (true :: bits).length := by omega
      rw [List.head?_eq_getElem?, List.getElem?_eq_getElem (by simpa using hpos),
        BitPacking.getElem_pack] at htrailer
      exact packWord_ne_trailer bits (Option.some.inj htrailer)

/-- A frame that fails the first test is not a measurement. -/
theorem starfritRaw_of_not_passesTrailer {buff : CString} (h : ¬ PassesTrailer buff) :
    starfritRaw buff = none := by
  have hverdict : starfritVerdict buff = .other := by
    unfold starfritVerdict
    simp only
    split
    · rename_i hsize
      exact examine_eq_other fun htrailer => h ⟨hsize, htrailer⟩
    · rfl
  rw [starfritRaw, hverdict]
  rfl

/-- Frames none of which is a measurement leave the measurements alone. -/
theorem foldl_unmeasured (clock : Nat → Int) (s : Starfrit) {frames : List CString}
    (h : ∀ buff ∈ frames, starfritRaw buff = none) :
    (frames.foldl (starfritFrame clock) s).measurements = s.measurements := by
  induction frames generalizing s with
  | nil => rfl
  | cons buff frames ih =>
      rw [List.foldl_cons, ih _ fun b hb => h b (List.mem_cons_of_mem buff hb),
        starfritFrame_of_not_accepted clock s (h buff List.mem_cons_self)]

/-! ## The result -/

/-- The frames the daemon takes from a marked stream fail the first test. -/
theorem taken_not_passesTrailer {dm : DataModel} {frames : List (CString × Nat)}
    {ws : List LircT} (hint : ∀ f ∈ frames, 0 < toInt f.1.strlen)
    (htraffic : NecTraffic dm frames ws) {st : DecodeState} (hst : Holds st []) :
    ∀ buff ∈ (unkn0.wordMachine.run st ws).2, ¬ PassesTrailer buff := by
  obtain ⟨pieces, hpieces, hclass⟩ := classify_traffic hint htraffic
  intro buff hbuff
  rw [(run_refines unkn0 hst ws).2] at hbuff
  obtain ⟨bits, hbits, rfl⟩ := List.mem_map.mp hbuff
  have hfits := (Framing.run_length_le (Nat.zero_le capacity) _).2 bits hbits
  rw [hclass] at hbits
  exact not_passesTrailer (Framing.run_marked (by decide) 1 hpieces (Nat.zero_le _)
    (Or.inl rfl) bits hbits) hfits

/-- Frames none of which is a measurement need no numbers. -/
theorem scaleFits_unmeasured (clock : Nat → Int) (s : Starfrit) {frames : List CString}
    (h : ∀ buff ∈ frames, starfritRaw buff = none) : ScaleFits clock s frames := by
  induction frames generalizing s with
  | nil => trivial
  | cons buff frames ih =>
      refine ⟨fun f hf => ?_, ih _ fun b hb => h b (List.mem_cons_of_mem buff hb)⟩
      have hnone := h buff List.mem_cons_self
      rw [starfritRaw, hf] at hnone
      cases hnone

/-- Traffic of strings whose lengths are positive as an `int` is never taken for
a measurement: any gaps, any blocks. -/
theorem neverMeasured_of_positive {dm : DataModel} (clock : Nat → Int) (st : DecodeState)
    (s : Starfrit) {frames : List (CString × Nat)}
    (hint : ∀ f ∈ frames, 0 < toInt f.1.strlen) {blocks : List (List LircT)}
    (htraffic : NecTraffic dm frames blocks.flatten) :
    NeverMeasured clock st s blocks := by
  have hdaemon := starfritBlocks_eq_run (intClock clock) (unkn0DecodeReset st) s blocks
  have hst : Holds (unkn0DecodeReset st) [] := holds_reset st
  have htaken := taken_not_passesTrailer hint htraffic hst
  have hquiet : ∀ buff ∈ (unkn0.wordMachine.run (unkn0DecodeReset st) blocks.flatten).2,
      starfritRaw buff = none :=
    fun buff hbuff => starfritRaw_of_not_passesTrailer (htaken buff hbuff)
  have hfits := scaleFits_unmeasured clock s hquiet
  obtain ⟨new, htrace, hnew, hevents⟩ := trace_foldl (intClock clock) s
    (unkn0.wordMachine.run (unkn0DecodeReset st) blocks.flatten).2
  refine ⟨_, _, new, starfritBlocksInt_ok_iff.mpr ⟨hfits, hdaemon⟩,
    foldl_unmeasured (intClock clock) s hquiet, htrace, fun p hp => ?_⟩
  have hframe : p.frame ∈ (unkn0.wordMachine.run (unkn0DecodeReset st) blocks.flatten).2 := by
    rw [← hnew]
    exact List.mem_map_of_mem hp
  exact ⟨htaken _ hframe, (hevents p hp).2 (hquiet _ hframe)⟩

/-! ## Frames that are not there -/

/-- Gaps that spell 0x54 and 25 zeros when nothing stands between them. -/
def spelled : List Nat := [500, 1000, 500, 1000, 500, 1000, 500, 500] ++ List.replicate 25 500

theorem spelled_lt : ∀ g ∈ spelled ++ [77000], g < 2 ^ 24 := by
  decide

/-- The string again and again, with these gaps and a last one that ends the
frame. -/
def spelledFrames (s : CString) : List (CString × Nat) :=
  (spelled ++ [77000]).map fun g => (s, g)

/-- Its words. -/
def spelledWords : List LircT := (spelled ++ [77000]).map space

/-- Where `nec_encode` returns nothing, only the gaps are left. -/
theorem necTraffic_spelled {dm : DataModel} {s : CString} (hint : toInt s.strlen ≤ 0)
    {words : List LircT} (htraffic : NecTraffic dm (spelledFrames s) words) :
    words = spelledWords := by
  obtain ⟨blocks, hblocks, rfl⟩ := htraffic
  unfold spelledFrames spelledWords at *
  generalize spelled ++ [77000] = gaps at *
  induction gaps generalizing blocks with
  | nil => rfl
  | cons g gaps ih =>
      obtain ⟨block, blocks, hblock, hrest, rfl⟩ := List.forall₂_cons_left_iff.mp hblocks
      obtain rfl := hblock.eq_nil hint
      show _ = space g :: gaps.map space
      rw [← ih blocks hrest]
      rfl

theorem exists_necTraffic {dm : DataModel} {frames : List (CString × Nat)}
    (hframes : ∀ f ∈ frames, ∃ ws, NecFrame dm f.1 ws) : ∃ words, NecTraffic dm frames words := by
  have hblocks : ∃ blocks, List.Forall₂ (fun f block => NecFrame dm f.1 block) frames blocks := by
    induction frames with
    | nil => exact ⟨[], .nil⟩
    | cons f frames ih =>
        obtain ⟨block, hblock⟩ := hframes f List.mem_cons_self
        obtain ⟨blocks, hblocks⟩ := ih fun g hg => hframes g (List.mem_cons_of_mem f hg)
        exact ⟨block :: blocks, .cons hblock hblocks⟩
  obtain ⟨blocks, hblocks⟩ := hblocks
  exact ⟨_, blocks, hblocks, rfl⟩

/-- The bits the gaps are read as. -/
theorem classify_spelled :
    spelledWords.map unkn0.classify =
      (spelled.map fun g => .datum (decide (unkn0TD < g))) ++ [.delimiter] := by
  have hshort : ∀ g ∈ spelled, unkn0.classify (space g) = .datum (decide (unkn0TD < g)) := by
    intro g hg
    have hTS : unkn0TS < 2 ^ 24 := by decide
    have hle : g ≤ unkn0TS := by
      revert g
      decide
    have hspace := isPulse_space (Nat.lt_of_le_of_lt hle hTS)
    have hlen := lenght_space (Nat.lt_of_le_of_lt hle hTS)
    have hdata : unkn0.endOfFrame (isPulse (space g)) (lenght (space g)) = false := by
      rw [hspace, hlen]
      exact decide_eq_false (Nat.not_lt.mpr hle)
    rw [Protocol.classify_space hdata hspace, hlen]
    rfl
  have hlast : unkn0.classify (space 77000) = .delimiter :=
    unkn0_classify_gap (isPulse_space (by decide)) (by rw [lenght_space] <;> decide)
  rw [spelledWords, List.map_append, List.map_append, List.map_map,
    List.map_congr_left (f := unkn0.classify ∘ space) hshort, List.map_singleton,
    List.map_singleton, hlast]

/-- The daemon takes a frame that passes the first test. -/
theorem spelled_taken (st : DecodeState) :
    ∃ buff ∈ (unkn0.wordMachine.run (unkn0DecodeReset st) spelledWords).2,
      PassesTrailer buff := by
  have hbody : Framing.NoDelimiter
      (spelled.map fun g => Symbol.datum (decide (unkn0TD < g))) := by
    simp [Framing.NoDelimiter]
  have hpayload : Framing.payload
      (spelled.map fun g => Symbol.datum (decide (unkn0TD < g))) =
        spelled.map fun g => decide (unkn0TD < g) := by
    generalize spelled = gaps
    induction gaps with
    | nil => rfl
    | cons g gaps ih => simp [ih]
  have hst : Holds (unkn0DecodeReset st) [] := holds_reset st
  rw [(run_refines unkn0 hst spelledWords).2, classify_spelled, Transducer.run_append,
    Framing.run_of_noDelimiter hbody (Nat.zero_le _), hpayload]
  refine ⟨CString.ofBits (spelled.map fun g => decide (unkn0TD < g)), ?_, ?_⟩
  · exact List.mem_map_of_mem List.mem_cons_self
  · unfold PassesTrailer
    rw [string2bytes_ofBits (by simp [spelled]) (by decide)]
    exact ⟨by decide, by decide⟩

/-- Null pointers in the traffic let the gaps through. -/
theorem spelled_measured (clock : Nat → Int) (st : DecodeState) (s : Starfrit) :
    ¬ NeverMeasured clock st s [spelledWords] := by
  rintro ⟨st', s', new, hrun, _, htrace, hnew⟩
  obtain ⟨buff, hbuff, hpasses⟩ := spelled_taken st
  obtain ⟨_, hrun⟩ := starfritBlocksInt_ok_iff.mp hrun
  rw [starfritBlocks_eq_run, List.flatten_singleton] at hrun
  have hs' := congrArg Prod.snd (Except.ok.inj hrun)
  simp only at hs'
  obtain ⟨new', htrace', hframes, _⟩ := trace_foldl (intClock clock) s
    (unkn0.wordMachine.run (unkn0DecodeReset st) spelledWords).2
  rw [hs', htrace] at htrace'
  obtain rfl := List.append_cancel_left htrace'
  rw [← hframes] at hbuff
  obtain ⟨p, hp, rfl⟩ := List.mem_map.mp hbuff
  exact (hnew p hp).1 hpasses

/-- The strings are encoded and fed to the daemon, whatever the order, the gaps and the
blocks, and never taken for a measurement. -/
def NecNeverMeasured (dm : DataModel) (clock : Nat → Int) (st : DecodeState) (s : Starfrit)
    (strings : CString → Prop) : Prop :=
  ∀ frames : List (CString × Nat), (∀ f ∈ frames, strings f.1 ∧ f.2 < 2 ^ 24) →
    ∃ words, NecTraffic dm frames words ∧
      ∀ blocks : List (List LircT), blocks.flatten = words → NeverMeasured clock st s blocks

/-- That is so exactly when every length, as an `int`, is positive and not too large
for the size of the words. -/
theorem nec_never_measured_iff (dm : DataModel) (clock : Nat → Int) (st : DecodeState)
    (s : Starfrit) (strings : CString → Prop) :
    NecNeverMeasured dm clock st s strings ↔
      ∀ str, strings str → 0 < toInt str.strlen ∧ toInt str.strlen ≤ 2 ^ 28 - 2 := by
  constructor
  · intro hnever str hstr
    have hframes : ∀ f ∈ spelledFrames str, strings f.1 ∧ f.2 < 2 ^ 24 := by
      intro f hf
      obtain ⟨g, hg, rfl⟩ := List.mem_map.mp hf
      exact ⟨hstr, spelled_lt g hg⟩
    obtain ⟨words, htraffic, hquiet⟩ := hnever (spelledFrames str) hframes
    constructor
    · by_contra hneg
      refine spelled_measured clock st s (hquiet [spelledWords] ?_)
      rw [List.flatten_singleton]
      exact (necTraffic_spelled (by omega) htraffic).symm
    · obtain ⟨blocks, hblocks, _⟩ := htraffic
      obtain ⟨block, hblock⟩ := exists_of_forall₂ hblocks
        (List.mem_map_of_mem (f := fun g => (str, g)) (List.mem_append_left _ List.mem_cons_self))
      exact hblock.length_le
  · intro hlengths frames hframes
    have hencodes : ∀ f ∈ frames, ∃ ws, NecFrame dm f.1 ws := by
      intro f hf
      obtain ⟨hpos, hle⟩ := hlengths f.1 (hframes f hf).1
      exact necFrame_of_length dm hpos hle
    obtain ⟨words, htraffic⟩ := exists_necTraffic hencodes
    refine ⟨words, htraffic, fun blocks hwords => ?_⟩
    subst hwords
    exact neverMeasured_of_positive clock st s
      (fun f hf => (hlengths f.1 (hframes f hf).1).1) htraffic

/-- A length that is zero as an `int` is returned with. -/
theorem necFrame_nil (dm : DataModel) {s : CString} (hzero : toInt s.strlen = 0) :
    NecFrame dm s [] := by
  have hhead : necWave.head.length = 2 := rfl
  have hbytes : nAlloc dm necWave.head.length 0 = .ok (4 * (2 * 0 + 2 + 1) : Nat) :=
    nAlloc_ok dm (n := 0) (by rw [hhead]; decide)
  refine ⟨⟨none, 0⟩, ?_, rfl⟩
  rw [necEncode, encode, hzero, hbytes, ok_bind, if_pos (Int.le_refl 0), pure_eq_ok]

/-- A string of 2^32 characters: its length is zero as an `int`, `nec_encode`
returns no words, and the gaps between its repetitions pass for a trailer. -/
theorem nec_measured_of_null :
    (zeros 4294967296).strlen ≠ 0 ∧
      (∀ f ∈ spelledFrames (zeros 4294967296), f.1 = zeros 4294967296 ∧ f.2 < 2 ^ 24) ∧
      NecTraffic .lp64 (spelledFrames (zeros 4294967296)) spelledWords ∧
      ¬ NeverMeasured (fun _ => 0) DecodeState.start Starfrit.start [spelledWords] ∧
      ¬ NecNeverMeasured .lp64 (fun _ => 0) DecodeState.start Starfrit.start
        (· = zeros 4294967296) := by
  have hlen := strlen_zeros 4294967296
  have hint : toInt (zeros 4294967296).strlen = 0 := by
    rw [hlen]
    unfold toInt
    simp
  have hframes : ∀ f ∈ spelledFrames (zeros 4294967296), f.1 = zeros 4294967296 ∧
      f.2 < 2 ^ 24 := by
    intro f hf
    obtain ⟨g, hg, rfl⟩ := List.mem_map.mp hf
    exact ⟨rfl, spelled_lt g hg⟩
  have hencodes : ∀ f ∈ spelledFrames (zeros 4294967296), ∃ ws, NecFrame .lp64 f.1 ws :=
    fun f hf => ⟨[], (hframes f hf).1 ▸ necFrame_nil .lp64 hint⟩
  obtain ⟨words, htraffic⟩ := exists_necTraffic hencodes
  obtain rfl := necTraffic_spelled (Int.le_of_eq hint) htraffic
  refine ⟨by rw [hlen]; omega, hframes, htraffic, spelled_measured _ _ _, ?_⟩
  rw [nec_never_measured_iff]
  intro hlengths
  have hpos := (hlengths _ rfl).1
  rw [hint] at hpos
  omega

end IrBridge.Scale
