/-
  Codec/RoundTrip.lean --- decode undoes encode, over whole streams.

  Frames are played back one after another, each followed by a gap, and the
  receive loop takes exactly their bits: for NEC from any reachable decoder
  state, whose leftover bits come out first, and for UNKN0 from any state at a
  gap.  The first `capacity` bits of each string come back, for every jitter of
  the durations inside the thresholds.

  The encoders keep the size of a frame in an `int`.  The round trip therefore
  holds exactly for strings whose frame size fits one, and the theorems say so
  with an equivalence.
-/
import IrBridge.Codec.Air
import Mathlib.Data.List.Forall2

set_option autoImplicit false

namespace IrBridge.Codec

open IrBridge.Foundation
open IrBridge.Platform

/-! ## Streams -/

/-- What a receiver makes of a string: its first `capacity` characters, every
character other than `'1'` read as `'0'`. -/
def firstBits (s : CString) : CString := CString.ofBits (s.bits.take capacity)

/-- Frames on the air, each followed by the gap that goes with it. -/
def withGaps (frames : List (CString × Nat)) (air : List (List LircT)) : List LircT :=
  (List.zipWith (fun f ws => ws ++ [space f.2]) frames air).flatten

/-- The receive loop over the stream takes exactly `taken`. -/
def Takes (P : Protocol) (st : DecodeState) (ws : List LircT) (taken : List CString) :
    Prop :=
  ∃ final, receiveFrames P st ws = .ok (final, taken)

/-- Classified, a stream is a sequence of framed bodies. -/
theorem classify_withGaps {P : Protocol} {lead : Nat} {frames : List (CString × Nat)}
    {air : List (List LircT)}
    (h : List.Forall₂ (fun f ws => (ws ++ [space f.2]).map P.classify =
      Framing.framed lead (bodySymbols f.1)) frames air) :
    (withGaps frames air).map P.classify =
      (frames.map fun f => bodySymbols f.1).flatMap (Framing.framed lead) := by
  induction h with
  | nil => rfl
  | cons hword _ ih =>
      rw [withGaps, List.zipWith_cons_cons, List.flatten_cons, List.map_append, hword,
        List.map_cons, List.flatMap_cons]
      exact congrArg _ ih

/-- The bodies of non-empty strings come back as their first bits. -/
theorem closed_bodies {frames : List (CString × Nat)}
    (hne : ∀ f ∈ frames, f.1.strlen ≠ 0) :
    ((frames.map fun f => bodySymbols f.1).flatMap fun xs =>
      Framing.close ((Framing.payload xs).take capacity)).map CString.ofBits =
        frames.map fun f => firstBits f.1 := by
  induction frames with
  | nil => rfl
  | cons f frames ih =>
      have hbits : f.1.bits.take capacity ≠ [] := by
        have hlen := hne f List.mem_cons_self
        rw [← CString.length_bits] at hlen
        rw [Ne, List.take_eq_nil_iff, not_or]
        exact ⟨by decide, fun hnil => hlen (by rw [hnil]; rfl)⟩
      rw [List.map_cons, List.flatMap_cons, payload_bodySymbols,
        Framing.close_of_ne_nil hbits, List.map_append,
        ih fun f' hf' => hne f' (List.mem_cons_of_mem f hf')]
      rfl

theorem noDelimiter_bodies (frames : List (CString × Nat)) :
    ∀ xs ∈ frames.map fun f => bodySymbols f.1, Framing.NoDelimiter xs := by
  intro xs hxs
  obtain ⟨f, _, rfl⟩ := List.mem_map.mp hxs
  exact noDelimiter_bodySymbols f.1

section Takes

variable {P : Protocol} {lead : Nat} {frames : List (CString × Nat)}
  {air : List (List LircT)}

/-- Without a header the frames come back from an empty buffer. -/
theorem takes_from_empty {st : DecodeState} (hst : Holds st [])
    (hne : ∀ f ∈ frames, f.1.strlen ≠ 0)
    (hair : List.Forall₂ (fun f ws => (ws ++ [space f.2]).map P.classify =
      Framing.framed lead (bodySymbols f.1)) frames air) :
    Takes P st (withGaps frames air) (frames.map fun f => firstBits f.1) := by
  have hrun := (run_refines P hst (withGaps frames air)).2
  rw [classify_withGaps hair, Framing.run_framed_nil lead (noDelimiter_bodies frames),
    closed_bodies hne] at hrun
  exact ⟨_, by rw [receiveFrames_eq_run, ← hrun]⟩

/-- With a header the frames come back from any buffer, which is flushed by the
first header word. -/
theorem takes_from_any {st : DecodeState} {bits : List Bool} (hst : Holds st bits)
    (hlead : lead ≠ 0) (hframes : frames ≠ []) (hne : ∀ f ∈ frames, f.1.strlen ≠ 0)
    (hair : List.Forall₂ (fun f ws => (ws ++ [space f.2]).map P.classify =
      Framing.framed lead (bodySymbols f.1)) frames air) :
    Takes P st (withGaps frames air)
      ((Framing.close bits).map CString.ofBits ++ frames.map fun f => firstBits f.1) := by
  have hrun := (run_refines P hst (withGaps frames air)).2
  rw [classify_withGaps hair,
    Framing.run_framed hlead (by simpa using hframes) (noDelimiter_bodies frames),
    List.map_append, closed_bodies hne] at hrun
  exact ⟨_, by rw [receiveFrames_eq_run, ← hrun]⟩

end Takes

/-! ## Encoder output -/

/-- The encoder returned `4 * (2 * |s| + header + 1)` bytes, `block` is all of
them, every word was stored and is below 2^24. -/
def EncodesTo (enc : CString → Except Fault Encoded) (header : Nat) (s : CString)
    (block : List LircT) : Prop :=
  enc s = .ok ⟨some (block.map some), 4 * (2 * s.strlen + header + 1)⟩ ∧
    ∀ w ∈ block, w.toNat < 2 ^ 24

/-- A waveform whose own words are plain durations. -/
def Waveform.Plain (W : Waveform) : Prop :=
  (∀ w ∈ W.head, w.toNat < 2 ^ 24) ∧ W.t0.toNat < 2 ^ 24 ∧ W.t1.toNat < 2 ^ 24

theorem necWave_plain : necWave.Plain := by
  simp [Waveform.Plain, necWave, necTheadPulse, necTheadSpace, necT0, necT1]

theorem unkn0Wave_plain : unkn0Wave.Plain := by
  simp [Waveform.Plain, unkn0Wave, unkn0T0, unkn0T1]

theorem Waveform.Plain.words {W : Waveform} (h : W.Plain) (chars : List Char) :
    ∀ w ∈ W.words chars, w.toNat < 2 ^ 24 := by
  obtain ⟨hhead, h0, h1⟩ := h
  intro w hw
  simp only [Waveform.words, Waveform.bit, List.mem_append, List.mem_flatMap,
    List.mem_cons, List.not_mem_nil, or_false] at hw
  rcases hw with (hw | ⟨c, _, hw⟩) | hw
  · exact hhead w hw
  · rcases hw with rfl | rfl
    · exact h0
    · split
      · exact h1
      · exact h0
  · rw [hw]
    exact h0

/-- The outputs for a list of strings, when each of them fits. -/
theorem forall₂_encodesTo (dm : DataModel) {W : Waveform} (hW : W.Plain)
    {frames : List (CString × Nat)} (hne : ∀ f ∈ frames, f.1.strlen ≠ 0)
    (hfits : ∀ f ∈ frames,
      (4 * (2 * f.1.strlen + W.head.length + 1) : Int) ≤ intMax) :
    List.Forall₂ (fun f block => EncodesTo (encode dm W) W.head.length f.1 block) frames
      (frames.map fun f => W.words f.1.chars) := by
  rw [List.forall₂_map_right_iff, List.forall₂_same]
  exact fun f hf => ⟨encode_ok dm W (hne f hf) (hfits f hf), hW.words f.1.chars⟩

/-- Only a frame whose size fits an `int` is encoded as it should be. -/
theorem EncodesTo.fits {dm : DataModel} {W : Waveform} {header : Nat} {s : CString}
    {block : List LircT} (h : EncodesTo (encode dm W) header s block) :
    (4 * (2 * s.strlen + header + 1) : Int) ≤ intMax := by
  have := encode_size_le dm W h.1
  simp only at this
  omega

theorem exists_of_forall₂ {α β : Type} {R : α → β → Prop} {as : List α} {bs : List β}
    (h : List.Forall₂ R as bs) {a : α} (ha : a ∈ as) : ∃ b, R a b := by
  induction h with
  | nil => cases ha
  | cons hab _ ih =>
      rcases List.mem_cons.mp ha with rfl | ha
      · exact ⟨_, hab⟩
      · exact ih ha

/-- So for a list of frames each of which was encoded. -/
theorem fits_of_forall₂ {dm : DataModel} {W : Waveform} {header : Nat}
    {frames : List (CString × Nat)} {blocks : List (List LircT)}
    (h : List.Forall₂ (fun f block => EncodesTo (encode dm W) header f.1 block)
      frames blocks) :
    ∀ f ∈ frames, (4 * (2 * f.1.strlen + header + 1) : Int) ≤ intMax := by
  intro f hf
  obtain ⟨_, henc⟩ := exists_of_forall₂ h hf
  exact henc.fits

/-- Encoder and receiver together: when the receiver takes everything that is
on the air and playback is on the air, the round trip holds exactly when every
size fits an `int`. -/
theorem roundTrip_iff_fits (dm : DataModel) {W : Waveform} (hW : W.Plain) {P : Protocol}
    {st : DecodeState} {frames : List (CString × Nat)} {taken : List CString}
    {onAir : CString → List LircT → Prop} (hne : ∀ f ∈ frames, f.1.strlen ≠ 0)
    (hplayback : ∀ s, onAir s (playback (W.words s.chars)))
    (htakes : ∀ air, List.Forall₂ (fun f ws => onAir f.1 ws) frames air →
      Takes P st (withGaps frames air) taken) :
    ((∃ blocks, List.Forall₂
        (fun f block => EncodesTo (encode dm W) W.head.length f.1 block) frames blocks ∧
      Takes P st (withGaps frames (blocks.map playback)) taken) ∧
    ∀ air, List.Forall₂ (fun f ws => onAir f.1 ws) frames air →
      Takes P st (withGaps frames air) taken) ↔
    ∀ f ∈ frames, (4 * (2 * f.1.strlen + W.head.length + 1) : Int) ≤ intMax := by
  constructor
  · rintro ⟨⟨blocks, henc, _⟩, _⟩
    exact fits_of_forall₂ henc
  · intro hfits
    refine ⟨⟨_, forall₂_encodesTo dm hW hne hfits, htakes _ ?_⟩, htakes⟩
    rw [List.map_map, List.forall₂_map_right_iff, List.forall₂_same]
    exact fun f _ => hplayback f.1

/-! ## NEC -/

/-- The bits left over in the buffer before the first header, if there were any
and there is a header. -/
def leftover (st : DecodeState) (frames : List (CString × Nat)) : List CString :=
  if frames.isEmpty then [] else if 0 < st.idx then [st.taken] else []

/-- Decode undoes encode: the encoder's outputs are complete, and played back,
or with any admitted jitter, they are received as the strings' first bits. -/
def NecRoundTrip (dm : DataModel) (st : DecodeState) (frames : List (CString × Nat)) :
    Prop :=
  (∃ blocks, List.Forall₂ (fun f block => EncodesTo (necEncode dm) 2 f.1 block)
      frames blocks ∧
    Takes nec st (withGaps frames (blocks.map playback))
      (leftover st frames ++ frames.map fun f => firstBits f.1)) ∧
  ∀ air, List.Forall₂ (fun f ws => NecOnAir f.1 ws) frames air →
    Takes nec st (withGaps frames air)
      (leftover st frames ++ frames.map fun f => firstBits f.1)

section Nec

variable {st : DecodeState} {frames : List (CString × Nat)}

/-- NEC frames on the air are received, whatever the decoder held before. -/
theorem nec_takes (hst : Reachable nec st) (hne : ∀ f ∈ frames, f.1.strlen ≠ 0)
    (hgap : ∀ f ∈ frames, necTS < f.2 ∧ f.2 < 2 ^ 24) {air : List (List LircT)}
    (hair : List.Forall₂ (fun f ws => NecOnAir f.1 ws) frames air) :
    Takes nec st (withGaps frames air)
      (leftover st frames ++ frames.map fun f => firstBits f.1) := by
  obtain ⟨bits, hbits⟩ := hst.holds
  have hclass : List.Forall₂ (fun f ws => (ws ++ [space f.2]).map nec.classify =
      Framing.framed 2 (bodySymbols f.1)) frames air :=
    ((List.forall₂_and_left _ _).mpr ⟨hgap, hair⟩).imp
      fun _ _ h => h.2.classify h.1.1 h.1.2
  by_cases hframes : frames = []
  · subst hframes
    cases hair
    exact ⟨st, receiveFrames_eq_run nec st []⟩
  · have hleft : (Framing.close bits).map CString.ofBits = leftover st frames := by
      rw [leftover, if_neg (by simpa using hframes), hbits.idx_eq, hbits.taken_eq]
      cases bits <;> rfl
    rw [← hleft]
    exact takes_from_any hbits (by decide) hframes hne hclass

theorem nec_fits_iff (n : Nat) :
    (4 * (2 * n + (2 : Nat) + 1) : Int) ≤ intMax ↔ n ≤ 2 ^ 28 - 2 := by
  unfold intMax
  omega

/-- The NEC round trip holds exactly when no string is longer than 2^28 - 2
characters. -/
theorem nec_roundTrip_iff (dm : DataModel) (hst : Reachable nec st)
    (hne : ∀ f ∈ frames, f.1.strlen ≠ 0)
    (hgap : ∀ f ∈ frames, necTS < f.2 ∧ f.2 < 2 ^ 24) :
    NecRoundTrip dm st frames ↔ ∀ f ∈ frames, f.1.strlen ≤ 2 ^ 28 - 2 := by
  have hfits : NecRoundTrip dm st frames ↔
      ∀ f ∈ frames, (4 * (2 * f.1.strlen + (2 : Nat) + 1) : Int) ≤ intMax :=
    roundTrip_iff_fits dm necWave_plain hne necOnAir_playback
      fun _ hair => nec_takes hst hne hgap hair
  exact hfits.trans (forall₂_congr fun f _ => nec_fits_iff f.1.strlen)

end Nec

/-- The round trip of two characters, from program start. -/
theorem nec_roundTrip_one_zero :
    NecRoundTrip .ilp32 DecodeState.start [(CString.ofBits [true, false], 77000)] :=
  (nec_roundTrip_iff .ilp32 .start (by simp) (by simp [necTS])).mpr (by simp)

/-- A string of `n` zeros. -/
def zeros (n : Nat) : CString := CString.ofBits (List.replicate n false)

@[simp] theorem strlen_zeros (n : Nat) : (zeros n).strlen = n := by
  rw [zeros, CString.strlen_ofBits, List.length_replicate]

/-- A frame that is too long for `int` is not encoded as documented. -/
theorem necRoundTrip_long (dm : DataModel) (st : DecodeState) {n : Nat}
    (hn : 2 ^ 28 - 2 < n) (g : Nat) : ¬ NecRoundTrip dm st [(zeros n, g)] := by
  rintro ⟨⟨blocks, henc, _⟩, _⟩
  have hfits := (nec_fits_iff _).mp (fits_of_forall₂ henc (zeros n, g) List.mem_cons_self)
  rw [strlen_zeros] at hfits
  omega

/-- 2^28 - 1 zeros, from program start and with an ordinary gap: `nAlloc` is
negative, `malloc` fails and the first store goes through a null pointer. -/
theorem necRoundTrip_fails :
    Reachable nec DecodeState.start ∧ (zeros 268435455).strlen ≠ 0 ∧
      necTS < 77000 ∧ 77000 < 2 ^ 24 ∧
      ¬ NecRoundTrip .lp64 DecodeState.start [(zeros 268435455, 77000)] := by
  refine ⟨.start, ?_, by unfold necTS; omega, by omega,
    necRoundTrip_long .lp64 _ (by omega) 77000⟩
  rw [strlen_zeros]
  omega

/-! ## UNKN0 -/

/-- The decoder states at a gap: freshly reset, or left by a receive loop whose
words ended in a space longer than `UNKN0_TS`. -/
inductive AtGap : DecodeState → Prop where
  | start : AtGap DecodeState.start
  | reset (st : DecodeState) : AtGap (unkn0DecodeReset st)
  | received {st final : DecodeState} {ws : List LircT} {g : LircT}
      {frames : List CString} :
      Reachable unkn0 st → isPulse g = false → unkn0TS < lenght g →
      receiveFrames unkn0 st (ws ++ [g]) = .ok (final, frames) → AtGap final

/-- At a gap the buffer is empty. -/
theorem AtGap.holds {st : DecodeState} (h : AtGap st) : Holds st [] := by
  cases h with
  | start => exact holds_start
  | reset st => exact holds_reset st
  | @received st0 _ ws g frames hst hspace hlong hrun =>
      obtain ⟨bits, hbits⟩ := hst.holds
      have hrefines := (run_refines unkn0 hbits (ws ++ [g])).1
      rw [List.map_append, List.map_cons, List.map_nil, unkn0_classify_gap hspace hlong,
        Framing.run_append_delimiter_state] at hrefines
      rw [receiveFrames_eq_run] at hrun
      have hfinal : (unkn0.wordMachine.run st0 (ws ++ [g])).1 = st :=
        congrArg Prod.fst (Except.ok.inj hrun)
      rwa [hfinal] at hrefines

/-- Decode undoes encode for UNKN0: exactly one frame for each string. -/
def Unkn0RoundTrip (dm : DataModel) (st : DecodeState) (frames : List (CString × Nat)) :
    Prop :=
  (∃ blocks, List.Forall₂ (fun f block => EncodesTo (unkn0Encode dm) 0 f.1 block)
      frames blocks ∧
    Takes unkn0 st (withGaps frames (blocks.map playback))
      (frames.map fun f => firstBits f.1)) ∧
  ∀ air, List.Forall₂ (fun f ws => Unkn0OnAir f.1 ws) frames air →
    Takes unkn0 st (withGaps frames air) (frames.map fun f => firstBits f.1)

section Unkn0

variable {st : DecodeState} {frames : List (CString × Nat)}

/-- UNKN0 frames on the air are received from any state at a gap. -/
theorem unkn0_takes (frames : List (CString × Nat)) (hst : AtGap st)
    (hne : ∀ f ∈ frames, f.1.strlen ≠ 0)
    (hgap : ∀ f ∈ frames, unkn0TS < f.2 ∧ f.2 < 2 ^ 24) {air : List (List LircT)}
    (hair : List.Forall₂ (fun f ws => Unkn0OnAir f.1 ws) frames air) :
    Takes unkn0 st (withGaps frames air) (frames.map fun f => firstBits f.1) :=
  takes_from_empty hst.holds hne
    (((List.forall₂_and_left _ _).mpr ⟨hgap, hair⟩).imp
      fun _ _ h => h.2.classify h.1.1 h.1.2)

theorem unkn0_fits_iff (n : Nat) :
    (4 * (2 * n + (0 : Nat) + 1) : Int) ≤ intMax ↔ n ≤ 2 ^ 28 - 1 := by
  unfold intMax
  omega

/-- The UNKN0 round trip holds exactly when no string is longer than 2^28 - 1
characters. -/
theorem unkn0_roundTrip_iff (dm : DataModel) (hst : AtGap st)
    (hne : ∀ f ∈ frames, f.1.strlen ≠ 0)
    (hgap : ∀ f ∈ frames, unkn0TS < f.2 ∧ f.2 < 2 ^ 24) :
    Unkn0RoundTrip dm st frames ↔ ∀ f ∈ frames, f.1.strlen ≤ 2 ^ 28 - 1 := by
  have hfits : Unkn0RoundTrip dm st frames ↔
      ∀ f ∈ frames, (4 * (2 * f.1.strlen + (0 : Nat) + 1) : Int) ≤ intMax :=
    roundTrip_iff_fits dm unkn0Wave_plain hne unkn0OnAir_playback
      fun _ hair => unkn0_takes frames hst hne hgap hair
  exact hfits.trans (forall₂_congr fun f _ => unkn0_fits_iff f.1.strlen)

end Unkn0

/-- The round trip of two characters, from a fresh decoder. -/
theorem unkn0_roundTrip_one_zero :
    Unkn0RoundTrip .ilp32 DecodeState.start [(CString.ofBits [true, false], 77000)] :=
  (unkn0_roundTrip_iff .ilp32 .start (by simp) (by simp [unkn0TS])).mpr (by simp)

theorem unkn0RoundTrip_long (dm : DataModel) (st : DecodeState) {n : Nat}
    (hn : 2 ^ 28 - 1 < n) (g : Nat) : ¬ Unkn0RoundTrip dm st [(zeros n, g)] := by
  rintro ⟨⟨blocks, henc, _⟩, _⟩
  have hfits := (unkn0_fits_iff _).mp (fits_of_forall₂ henc (zeros n, g) List.mem_cons_self)
  rw [strlen_zeros] at hfits
  omega

/-- 2^28 zeros are the shortest string UNKN0 cannot encode. -/
theorem unkn0RoundTrip_fails :
    AtGap DecodeState.start ∧ (zeros 268435456).strlen ≠ 0 ∧
      unkn0TS < 77000 ∧ 77000 < 2 ^ 24 ∧
      ¬ Unkn0RoundTrip .lp64 DecodeState.start [(zeros 268435456, 77000)] := by
  refine ⟨.start, ?_, by unfold unkn0TS; omega, by omega,
    unkn0RoundTrip_long .lp64 _ (by omega) 77000⟩
  rw [strlen_zeros]
  omega

end IrBridge.Codec
