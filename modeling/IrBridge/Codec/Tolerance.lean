/-
  Codec/Tolerance.lean --- how far the durations may be off.

  The driver measures durations and a remote does not keep them exactly: what an
  encoder wrote arrives with every duration a little longer or shorter.  The
  thresholds of the decoders bound how much.  For both protocols the bound is the
  distance between the space of a `1` and the threshold below it; one microsecond
  more, and a `1` can be read as a `0`.
-/
import IrBridge.Codec.RoundTrip

set_option autoImplicit false

namespace IrBridge.Codec

open IrBridge.Foundation
open IrBridge.Platform

/-! ## Jitter -/

/-- Two durations no more than `J` apart. -/
def Near (J : Nat) (d d' : Nat) : Prop := d ≤ d' + J ∧ d' ≤ d + J

instance (J d d' : Nat) : Decidable (Near J d d') := inferInstanceAs (Decidable (_ ∧ _))

theorem Near.le {J d d' bound : Nat} (h : Near J d d') (hbound : d + J ≤ bound) : d' ≤ bound :=
  Nat.le_trans h.2 hbound

theorem Near.within {J d d' low high : Nat} (h : Near J d d') (hlow : low + J < d)
    (hhigh : d + J ≤ high) : low < d' ∧ d' ≤ high := by
  obtain ⟨habove, hbelow⟩ := h
  exact ⟨by omega, by omega⟩

/-- `w'` is `w` as it was received: a pulse or a space like it, at most `J`
microseconds longer or shorter. -/
def Jitters (J : Nat) (w w' : LircT) : Prop :=
  isPulse w' = isPulse w ∧ Near J (lenght w) (lenght w')

instance (J : Nat) (w w' : LircT) : Decidable (Jitters J w w') :=
  inferInstanceAs (Decidable (_ ∧ _))

theorem Jitters.mono {J J' : Nat} (hJ : J ≤ J') {w w' : LircT} (h : Jitters J w w') :
    Jitters J' w w' := by
  obtain ⟨hpulse, hlow, hhigh⟩ := h
  exact ⟨hpulse, by omega, by omega⟩

/-- The words of an encoder's output for `s`, played back and received with
jitter. -/
def Jittered (W : Waveform) (J : Nat) (s : CString) (ws : List LircT) : Prop :=
  List.Forall₂ (Jitters J) (playback (W.words s.chars)) ws

/-- A played-back data part with jitter is on the air, if all durations near the
nominal ones are admitted. -/
theorem bitsOnAir_jitter (W : Waveform) {J : Nat} (pulse zero one : Nat → Prop)
    (hspace0 : isPulse W.t0 = false) (hspace1 : isPulse W.t1 = false)
    (hpulse : ∀ d, Near J (lenght W.t0) d → pulse d)
    (hzero : ∀ d, Near J (lenght W.t0) d → zero d)
    (hone : ∀ d, Near J (lenght W.t1) d → one d)
    {chars : List Char} {ws : List LircT}
    (hws : List.Forall₂ (Jitters J) (playback (chars.flatMap W.bit ++ [W.t0])) ws) :
    ∃ bits tp, ws = bits ++ [tp] ∧ BitsOnAir pulse zero one chars bits ∧
      isPulse tp = true ∧ pulse (lenght tp) := by
  have hplayed : ∀ {p : LircT}, Jitters J (W.t0 ||| pulseBit) p →
      isPulse p = true ∧ pulse (lenght p) := by
    intro p hp
    obtain ⟨hkind, hnear⟩ := hp
    rw [isPulse_or_pulseBit] at hkind
    rw [lenght_or_pulseBit] at hnear
    exact ⟨hkind, hpulse _ hnear⟩
  induction chars generalizing ws with
  | nil =>
      change List.Forall₂ (Jitters J) [W.t0 ||| pulseBit] ws at hws
      obtain ⟨tp, rest, htp, hrest, rfl⟩ := List.forall₂_cons_left_iff.mp hws
      obtain rfl := List.forall₂_nil_left_iff.mp hrest
      exact ⟨[], tp, rfl, .nil, hplayed htp⟩
  | cons c cs ih =>
      rw [List.flatMap_cons, Waveform.bit, List.append_assoc, List.cons_append,
        List.cons_append, List.nil_append, playback_cons_cons] at hws
      obtain ⟨p, rest, hp, hrest, rfl⟩ := List.forall₂_cons_left_iff.mp hws
      obtain ⟨s, rest', hs, hrest', rfl⟩ := List.forall₂_cons_left_iff.mp hrest
      obtain ⟨bits, tp, rfl, hbits, htp⟩ := ih hrest'
      refine ⟨p :: s :: bits, tp, rfl,
        .cons (hplayed hp).1 (hplayed hp).2 ?_ ?_ hbits, htp⟩
      · rw [hs.1]
        split
        · exact hspace1
        · exact hspace0
      · obtain ⟨_, hnear⟩ := hs
        split
        · rename_i hc
          rw [if_pos hc] at hnear
          exact hone _ hnear
        · rename_i hc
          rw [if_neg hc] at hnear
          exact hzero _ hnear

/-! ## NEC -/

/-- The durations of a NEC frame. -/
theorem necDurations : lenght necT0 = 560 ∧ lenght necT1 = 1680 ∧
    lenght necTheadPulse = 9000 ∧ lenght necTheadSpace = 4500 ∧ necTS = 2500 ∧
    necTD = 1120 := by
  decide

/-- With a jitter below 560 it is still a NEC frame. -/
theorem Jittered.necOnAir {J : Nat} (hJ : J ≤ 559) {s : CString} {ws : List LircT}
    (h : Jittered necWave J s ws) : NecOnAir s ws := by
  obtain ⟨hT0, hT1, hpulse, hspace, hTS, hTD⟩ := necDurations
  change List.Forall₂ (Jitters J) (playback (necTheadPulse :: necTheadSpace ::
    (s.chars.flatMap necWave.bit ++ [necT0]))) ws at h
  rw [playback_cons_cons] at h
  obtain ⟨hp, rest, hhp, hrest, rfl⟩ := List.forall₂_cons_left_iff.mp h
  obtain ⟨hs, rest', hhs, hrest', rfl⟩ := List.forall₂_cons_left_iff.mp hrest
  have hpulse0 : lenght necT0 + J ≤ necTS := by omega
  have hspace0 : lenght necT0 + J ≤ necTD := by omega
  have hlow1 : necTD + J < lenght necT1 := by omega
  have hhigh1 : lenght necT1 + J ≤ necTS := by omega
  obtain ⟨bits, tp, rfl, hbits, htp, htpd⟩ := bitsOnAir_jitter necWave
    (· ≤ necTS) (· ≤ necTD) (fun d => necTD < d ∧ d ≤ necTS) (by decide) (by decide)
    (fun _ hd => hd.le hpulse0) (fun _ hd => hd.le hspace0)
    (fun _ hd => hd.within hlow1 hhigh1) hrest'
  obtain ⟨hkind, hnear, _⟩ := hhp
  obtain ⟨hkind', hnear', _⟩ := hhs
  rw [isPulse_or_pulseBit] at hkind
  rw [lenght_or_pulseBit] at hnear
  exact ⟨hp, hs, bits, tp, rfl, hkind, by omega, hkind'.trans (by decide), by omega, hbits,
    htp, htpd⟩

/-- A jitter of `J` does no harm to NEC: frames come back as their first bits,
from any state, for any gaps. -/
def NecTolerates (J : Nat) : Prop :=
  ∀ (st : DecodeState) (frames : List (CString × Nat)) (air : List (List LircT)),
    Reachable nec st → (∀ f ∈ frames, f.1.strlen ≠ 0) →
    (∀ f ∈ frames, necTS < f.2 ∧ f.2 < 2 ^ 24) →
    List.Forall₂ (fun f ws => Jittered necWave J f.1 ws) frames air →
    Takes nec st (withGaps frames air)
      (leftover st frames ++ frames.map fun f => firstBits f.1)

/-- The receive loop takes something else. -/
theorem not_takes {P : Protocol} {st : DecodeState} {ws : List LircT}
    {taken : List CString} (other : List CString)
    (hother : (receiveFrames P st ws).map Prod.snd = .ok other)
    (hne : taken ≠ other) : ¬ Takes P st ws taken := by
  rintro ⟨final, hrun⟩
  rw [hrun] at hother
  exact hne (Except.ok.inj hother)

/-- The string `1`. -/
def oneString : CString := CString.ofBits [true]

/-- It, with the space of the `1` cut down to `d`. -/
def shortOne (W : Waveform) (d : Nat) : List LircT :=
  playback W.head ++ [W.t0 ||| pulseBit, space d, W.t0 ||| pulseBit]

/-- NEC tolerates exactly the jitters below 560 microseconds. -/
theorem nec_tolerates_iff (J : Nat) : NecTolerates J ↔ J ≤ 559 := by
  constructor
  · intro htolerates
    by_contra hJ
    have hjittered : Jittered necWave J oneString (shortOne necWave 1120) := by
      have h560 : Jittered necWave 560 oneString (shortOne necWave 1120) := by
        unfold Jittered
        decide +kernel
      exact h560.imp fun _ _ h => h.mono (by omega)
    have htakes := htolerates DecodeState.start [(oneString, 77000)]
      [shortOne necWave 1120] .start (by simp [oneString]) (by simp [necTS])
      (.cons hjittered .nil)
    exact not_takes [CString.ofBits [false]] (by decide +kernel) (by decide +kernel) htakes
  · intro hJ st frames air hst hne hgap hair
    exact nec_takes hst hne hgap (hair.imp fun _ _ h => h.necOnAir hJ)

/-! ## UNKN0 -/

/-- The durations of an UNKN0 frame. -/
theorem unkn0Durations : lenght unkn0T0 = 500 ∧ lenght unkn0T1 = 1000 ∧
    unkn0TS = 10000 ∧ unkn0TD = 800 := by
  decide

/-- With a jitter below 200 it is still an UNKN0 frame. -/
theorem Jittered.unkn0OnAir {J : Nat} (hJ : J ≤ 199) {s : CString} {ws : List LircT}
    (h : Jittered unkn0Wave J s ws) : Unkn0OnAir s ws := by
  obtain ⟨hT0, hT1, hTS, hTD⟩ := unkn0Durations
  have hspace0 : lenght unkn0T0 + J ≤ unkn0TD := by omega
  have hlow1 : unkn0TD + J < lenght unkn0T1 := by omega
  have hhigh1 : lenght unkn0T1 + J ≤ unkn0TS := by omega
  obtain ⟨bits, tp, rfl, hbits, htp, _⟩ := bitsOnAir_jitter unkn0Wave
    (fun _ => True) (· ≤ unkn0TD) (fun d => unkn0TD < d ∧ d ≤ unkn0TS) (by decide) (by decide)
    (fun _ _ => trivial) (fun _ hd => hd.le hspace0) (fun _ hd => hd.within hlow1 hhigh1) h
  exact ⟨bits, tp, rfl, hbits, htp⟩

/-- A jitter of `J` does no harm to UNKN0: frames come back as their first bits,
from any state at a gap, for any gaps. -/
def Unkn0Tolerates (J : Nat) : Prop :=
  ∀ (st : DecodeState) (frames : List (CString × Nat)) (air : List (List LircT)),
    AtGap st → (∀ f ∈ frames, f.1.strlen ≠ 0) →
    (∀ f ∈ frames, unkn0TS < f.2 ∧ f.2 < 2 ^ 24) →
    List.Forall₂ (fun f ws => Jittered unkn0Wave J f.1 ws) frames air →
    Takes unkn0 st (withGaps frames air) (frames.map fun f => firstBits f.1)

/-- UNKN0 tolerates exactly the jitters below 200 microseconds. -/
theorem unkn0_tolerates_iff (J : Nat) : Unkn0Tolerates J ↔ J ≤ 199 := by
  constructor
  · intro htolerates
    by_contra hJ
    have hjittered : Jittered unkn0Wave J oneString (shortOne unkn0Wave 800) := by
      have h200 : Jittered unkn0Wave 200 oneString (shortOne unkn0Wave 800) := by
        unfold Jittered
        decide +kernel
      exact h200.imp fun _ _ h => h.mono (by omega)
    have htakes := htolerates DecodeState.start [(oneString, 77000)]
      [shortOne unkn0Wave 800] .start (by simp [oneString]) (by simp [unkn0TS])
      (.cons hjittered .nil)
    exact not_takes [CString.ofBits [false]] (by decide +kernel) (by decide +kernel) htakes
  · intro hJ st frames air hst hne hgap hair
    exact unkn0_takes frames hst hne hgap (hair.imp fun _ _ h => h.unkn0OnAir hJ)

/-- Both protocols have an exact tolerance, that of UNKN0 being the smaller. -/
theorem tolerances (J : Nat) :
    (NecTolerates J ↔ J ≤ 559) ∧ (Unkn0Tolerates J ↔ J ≤ 199) :=
  ⟨nec_tolerates_iff J, unkn0_tolerates_iff J⟩

end IrBridge.Codec
