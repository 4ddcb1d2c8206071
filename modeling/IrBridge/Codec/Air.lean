/-
  Codec/Air.lean --- what an encoded frame looks like to a receiver.

  An encoder writes bare durations.  The driver plays them back as alternating
  pulses and spaces, so that a receiver sees `PULSE_BIT` on the even-indexed
  words (`playback`), with durations that jitter.  This file says which word
  lists count as a frame for a string (`NecOnAir`, `Unkn0OnAir`), shows that the
  played-back output of each encoder is one, and reads such a list through the
  decoder's classification: header delimiters, one datum per character, one
  closing delimiter.
-/
import IrBridge.Codec.Buffer
import IrBridge.Codec.Encode

set_option autoImplicit false

namespace IrBridge.Codec

open IrBridge.Foundation
open IrBridge.Platform

/-! ## Words -/

theorem isPulse_eq_getLsbD (w : LircT) : isPulse w = w.getLsbD 24 := by
  have hbit : pulseBit = BitVec.twoPow 32 24 := by decide
  unfold isPulse
  rw [hbit, BitVec.and_twoPow]
  cases w.getLsbD 24 <;> decide

theorem lenght_eq_mod (w : LircT) : lenght w = w.toNat % 2 ^ 24 := by
  have hmask : pulseMask.toNat = 2 ^ 24 - 1 := by decide
  rw [lenght, BitVec.toNat_and, hmask, Nat.and_two_pow_sub_one_eq_mod]

/-- The word `ir[i]`, played back as a pulse. -/
theorem isPulse_or_pulseBit (w : LircT) : isPulse (w ||| pulseBit) = true := by
  have hbit : pulseBit.getLsbD 24 = true := by decide
  rw [isPulse_eq_getLsbD, BitVec.getLsbD_or, hbit, Bool.or_true]

theorem lenght_or_pulseBit (w : LircT) : lenght (w ||| pulseBit) = lenght w := by
  have hzero : pulseBit &&& pulseMask = 0#32 := by decide
  rw [lenght, lenght, BitVec.and_comm, BitVec.and_or_distrib_left,
    BitVec.and_comm pulseMask pulseBit, hzero, BitVec.or_zero, BitVec.and_comm]

/-- The word of a space of `g` microseconds. -/
def space (g : Nat) : LircT := BitVec.ofNat 32 g

theorem isPulse_space {g : Nat} (hg : g < 2 ^ 24) : isPulse (space g) = false := by
  rw [isPulse_eq_getLsbD, space, BitVec.getLsbD_ofNat, Nat.testBit_lt_two_pow hg,
    Bool.and_false]

theorem lenght_space {g : Nat} (hg : g < 2 ^ 24) : lenght (space g) = g := by
  rw [lenght_eq_mod, space, BitVec.toNat_ofNat]
  omega

/-! ## Playback -/

/-- `ir2[i] = ir[i]; if (i % 2 == 0) ir2[i] |= PULSE_BIT;` -/
def playback (ws : List LircT) : List LircT :=
  ws.mapIdx fun i w => if i % 2 = 0 then w ||| pulseBit else w

theorem playback_cons_cons (w0 w1 : LircT) (ws : List LircT) :
    playback (w0 :: w1 :: ws) = (w0 ||| pulseBit) :: w1 :: playback ws := by
  have hshift : ∀ i, (i + 1 + 1) % 2 = i % 2 := fun i => by omega
  simp only [playback, List.mapIdx_cons, hshift]
  rfl

/-! ## Frames on the air -/

/-- The pulses and spaces of the data part: every character contributes a pulse
whose duration is admitted by `pulse` and a space admitted by `one` or `zero`. -/
inductive BitsOnAir (pulse zero one : Nat → Prop) : List Char → List LircT → Prop where
  | nil : BitsOnAir pulse zero one [] []
  | cons {c : Char} {p s : LircT} {cs : List Char} {ws : List LircT} :
      isPulse p = true → pulse (lenght p) →
      isPulse s = false → (if c = '1' then one (lenght s) else zero (lenght s)) →
      BitsOnAir pulse zero one cs ws → BitsOnAir pulse zero one (c :: cs) (p :: s :: ws)

/-- A NEC frame for `s`: both header words longer than `NEC_TS`, data and
trailing pulses at most `NEC_TS`, spaces of zeros at most `NEC_TD`, spaces of
ones between the two. -/
def NecOnAir (s : CString) (ws : List LircT) : Prop :=
  ∃ hp hs bits tp, ws = hp :: hs :: (bits ++ [tp]) ∧
    isPulse hp = true ∧ necTS < lenght hp ∧ isPulse hs = false ∧ necTS < lenght hs ∧
    BitsOnAir (· ≤ necTS) (· ≤ necTD) (fun d => necTD < d ∧ d ≤ necTS) s.chars bits ∧
    isPulse tp = true ∧ lenght tp ≤ necTS

/-- An UNKN0 frame for `s`: pulses of any duration, spaces of zeros at most
`UNKN0_TD`, spaces of ones between `UNKN0_TD` and `UNKN0_TS`. -/
def Unkn0OnAir (s : CString) (ws : List LircT) : Prop :=
  ∃ bits tp, ws = bits ++ [tp] ∧
    BitsOnAir (fun _ => True) (· ≤ unkn0TD) (fun d => unkn0TD < d ∧ d ≤ unkn0TS)
      s.chars bits ∧
    isPulse tp = true

/-- The played-back data part of an encoder's output. -/
theorem bitsOnAir_playback (W : Waveform) (pulse zero one : Nat → Prop)
    (hspace0 : isPulse W.t0 = false) (hspace1 : isPulse W.t1 = false)
    (hpulse : pulse (lenght W.t0)) (hzero : zero (lenght W.t0)) (hone : one (lenght W.t1))
    (chars : List Char) :
    ∃ bits, BitsOnAir pulse zero one chars bits ∧
      playback (chars.flatMap W.bit ++ [W.t0]) = bits ++ [W.t0 ||| pulseBit] := by
  induction chars with
  | nil => exact ⟨[], .nil, rfl⟩
  | cons c cs ih =>
      obtain ⟨bits, hbits, heq⟩ := ih
      refine ⟨(W.t0 ||| pulseBit) :: (if c = '1' then W.t1 else W.t0) :: bits,
        .cons (isPulse_or_pulseBit _) (by rwa [lenght_or_pulseBit]) ?_ ?_ hbits, ?_⟩
      · split
        · exact hspace1
        · exact hspace0
      · split
        · exact hone
        · exact hzero
      · rw [List.flatMap_cons, Waveform.bit, List.append_assoc, List.cons_append,
          List.cons_append, List.nil_append, playback_cons_cons, heq]
        rfl

/-- The played-back output of `nec_encode` is a NEC frame. -/
theorem necOnAir_playback (s : CString) : NecOnAir s (playback (necWave.words s.chars)) := by
  obtain ⟨bits, hbits, heq⟩ := bitsOnAir_playback necWave
    (· ≤ necTS) (· ≤ necTD) (fun d => necTD < d ∧ d ≤ necTS)
    (by decide) (by decide) (by decide) (by decide) (by decide) s.chars
  refine ⟨necTheadPulse ||| pulseBit, necTheadSpace, bits, necT0 ||| pulseBit, ?_,
    by decide, by decide, by decide, by decide, hbits, by decide, by decide⟩
  show playback (necTheadPulse :: necTheadSpace :: (s.chars.flatMap necWave.bit ++ [necT0])) = _
  rw [playback_cons_cons]
  exact congrArg _ (congrArg _ heq)

/-- The played-back output of `unkn0_encode` is an UNKN0 frame. -/
theorem unkn0OnAir_playback (s : CString) :
    Unkn0OnAir s (playback (unkn0Wave.words s.chars)) := by
  obtain ⟨bits, hbits, heq⟩ := bitsOnAir_playback unkn0Wave
    (fun _ => True) (· ≤ unkn0TD) (fun d => unkn0TD < d ∧ d ≤ unkn0TS)
    (by decide) (by decide) trivial (by decide) (by decide) s.chars
  exact ⟨bits, unkn0T0 ||| pulseBit, heq, hbits, by decide⟩

/-! ## Classification -/

/-- The symbols of a frame body: a silent pulse and a bit for each character,
and the silent trailing pulse. -/
def bodySymbols (s : CString) : List (Symbol Bool) :=
  (s.chars.flatMap fun c => [.neutral, .datum (c == '1')]) ++ [.neutral]

theorem noDelimiter_bodySymbols (s : CString) : Framing.NoDelimiter (bodySymbols s) := by
  simp [Framing.NoDelimiter, bodySymbols]

@[simp] theorem payload_bodySymbols (s : CString) :
    Framing.payload (bodySymbols s) = s.bits := by
  have hchars : ∀ cs : List Char,
      Framing.payload (cs.flatMap fun c => [Symbol.neutral, .datum (c == '1')]) =
        cs.map (· == '1') := by
    intro cs
    induction cs with
    | nil => rfl
    | cons c cs ih => simp [ih]
  rw [bodySymbols, Framing.payload_append, hchars, CString.bits]
  simp

/-- Data pulses and spaces of admitted durations are read as the characters. -/
theorem BitsOnAir.classify {P : Protocol} {pulse zero one : Nat → Prop}
    (hpulse : ∀ d, pulse d → P.endOfFrame true d = false)
    (hzero : ∀ d, zero d → P.endOfFrame false d = false ∧ ¬ d > P.td)
    (hone : ∀ d, one d → P.endOfFrame false d = false ∧ d > P.td)
    {cs : List Char} {ws : List LircT} (h : BitsOnAir pulse zero one cs ws) :
    ws.map P.classify = cs.flatMap fun c => [.neutral, .datum (c == '1')] := by
  induction h with
  | nil => rfl
  | @cons c p s cs ws hp hpd hs hsd _ ih =>
      have hclassp : P.classify p = .neutral :=
        Protocol.classify_pulse (by rw [hp]; exact hpulse _ hpd) hp
      have hclasss : P.classify s = .datum (c == '1') := by
        by_cases hc : c = '1'
        · rw [if_pos hc] at hsd
          rw [Protocol.classify_space (by rw [hs]; exact (hone _ hsd).1) hs,
            decide_eq_true (hone _ hsd).2, hc]
          rfl
        · rw [if_neg hc] at hsd
          rw [Protocol.classify_space (by rw [hs]; exact (hzero _ hsd).1) hs,
            decide_eq_false (hzero _ hsd).2, beq_eq_false_iff_ne.mpr hc]
      rw [List.map_cons, List.map_cons, hclassp, hclasss, ih]
      rfl

theorem nec_classify_long {w : LircT} (h : necTS < lenght w) :
    nec.classify w = .delimiter :=
  Protocol.classify_end (decide_eq_true h)

theorem nec_classify_short_pulse {w : LircT} (hp : isPulse w = true)
    (h : lenght w ≤ necTS) : nec.classify w = .neutral :=
  Protocol.classify_pulse (decide_eq_false (Nat.not_lt.mpr h)) hp

theorem unkn0_classify_pulse {w : LircT} (hp : isPulse w = true) :
    unkn0.classify w = .neutral :=
  Protocol.classify_pulse (by rw [hp]; rfl) hp

theorem unkn0_classify_gap {w : LircT} (hs : isPulse w = false) (h : unkn0TS < lenght w) :
    unkn0.classify w = .delimiter :=
  Protocol.classify_end (by rw [hs]; exact decide_eq_true h)

/-- A NEC frame and the gap after it: two delimiters, the body, one delimiter. -/
theorem NecOnAir.classify {s : CString} {ws : List LircT} (h : NecOnAir s ws) {g : Nat}
    (hgap : necTS < g) (hg : g < 2 ^ 24) :
    (ws ++ [space g]).map nec.classify = Framing.framed 2 (bodySymbols s) := by
  obtain ⟨hp, hs, bits, tp, rfl, _, hhp, _, hhs, hbits, htp, htpd⟩ := h
  have hTD : necTD < necTS := by decide
  have hdata := hbits.classify (P := nec)
    (fun d hd => decide_eq_false (Nat.not_lt.mpr hd))
    (fun d hd => ⟨decide_eq_false (Nat.not_lt.mpr (Nat.le_trans hd (Nat.le_of_lt hTD))),
      Nat.not_lt.mpr hd⟩)
    (fun d hd => ⟨decide_eq_false (Nat.not_lt.mpr hd.2), hd.1⟩)
  have hgapWord : nec.classify (space g) = .delimiter :=
    nec_classify_long (by rw [lenght_space hg]; exact hgap)
  simp only [List.cons_append, List.map_cons, List.map_append, List.map_nil, hdata,
    nec_classify_long hhp, nec_classify_long hhs, nec_classify_short_pulse htp htpd, hgapWord]
  rfl

/-- Pulses of any duration and spaces up to `UNKN0_TS` are the characters. -/
theorem unkn0_classify_bits {cs : List Char} {ws : List LircT}
    (h : BitsOnAir (fun _ => True) (· ≤ unkn0TD) (fun d => unkn0TD < d ∧ d ≤ unkn0TS)
      cs ws) :
    ws.map unkn0.classify = cs.flatMap fun c => [.neutral, .datum (c == '1')] := by
  have hTD : unkn0TD < unkn0TS := by decide
  exact h.classify (P := unkn0) (fun d _ => rfl)
    (fun d hd => ⟨decide_eq_false (Nat.not_lt.mpr (Nat.le_trans hd (Nat.le_of_lt hTD))),
      Nat.not_lt.mpr hd⟩)
    (fun d hd => ⟨decide_eq_false (Nat.not_lt.mpr hd.2), hd.1⟩)

/-- An UNKN0 frame and the gap after it: the body and one delimiter. -/
theorem Unkn0OnAir.classify {s : CString} {ws : List LircT} (h : Unkn0OnAir s ws) {g : Nat}
    (hgap : unkn0TS < g) (hg : g < 2 ^ 24) :
    (ws ++ [space g]).map unkn0.classify = Framing.framed 0 (bodySymbols s) := by
  obtain ⟨bits, tp, rfl, hbits, htp⟩ := h
  have hdata := unkn0_classify_bits hbits
  have hgapWord : unkn0.classify (space g) = .delimiter :=
    unkn0_classify_gap (isPulse_space hg) (by rw [lenght_space hg]; exact hgap)
  simp only [List.map_append, List.map_cons, List.map_nil, hdata,
    unkn0_classify_pulse htp, hgapWord]
  rfl

end IrBridge.Codec
