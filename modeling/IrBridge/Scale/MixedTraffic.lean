/-
  Scale/MixedTraffic.lean --- remotes and the scale in one room.

  The device hears NEC remotes and the UNKN0 scale, one frame after another.  Both
  decoders see every word.  With a silence between any two frames each decoder
  takes one frame for each that was sent: its own as it was, and one of the other
  protocol as something else.  What the UNKN0 decoder makes of a NEC frame starts
  with a `1`, so that the measurements are those of the scale alone.
-/
import IrBridge.Codec.Tolerance
import IrBridge.Scale.NecTraffic

set_option autoImplicit false

namespace IrBridge.Scale

open IrBridge.Foundation
open IrBridge.Codec
open IrBridge.Platform

/-! ## Emissions -/

/-- Who sends. -/
inductive Sender where
  | remote
  | scale
  deriving DecidableEq

/-- The encoder of a sender. -/
def Sender.wave : Sender → Waveform
  | .remote => necWave
  | .scale => unkn0Wave

/-- What the NEC decoder makes of a frame. -/
def Sender.heardByNec : Sender → CString → List Bool
  | .remote, s => s.bits
  | .scale, s => List.replicate s.strlen false

/-- What the UNKN0 decoder makes of a frame. -/
def Sender.heardByUnkn0 : Sender → CString → List Bool
  | .remote, s => true :: s.bits
  | .scale, s => s.bits

/-- A frame, the words that were received of it, and the silence after it. -/
structure Emission where
  sender : Sender
  string : CString
  received : List LircT
  gap : Nat

/-- The words of several emissions. -/
def onAir (emissions : List Emission) : List LircT :=
  emissions.flatMap fun e => e.received ++ [space e.gap]

/-- The string is not empty, the durations are off by at most `J`, and the
silence is one to both decoders. -/
structure Emission.Heard (J : Nat) (e : Emission) : Prop where
  nonempty : e.string.strlen ≠ 0
  jittered : Jittered e.sender.wave J e.string e.received
  silence : unkn0TS < e.gap ∧ e.gap < 2 ^ 24

/-- A frame as the driver plays it back, and an ordinary silence. -/
def Emission.played (sender : Sender) (s : CString) : Emission :=
  ⟨sender, s, playback (sender.wave.words s.chars), 77000⟩

theorem Emission.Heard.played (sender : Sender) {s : CString} (hne : s.strlen ≠ 0) (J : Nat) :
    (Emission.played sender s).Heard J := by
  have hsilence : unkn0TS < 77000 ∧ 77000 < 2 ^ 24 := by decide
  refine ⟨hne, ?_, hsilence⟩
  rw [Jittered, Emission.played, List.forall₂_same]
  exact fun w _ => ⟨rfl, Nat.le_add_right _ _, Nat.le_add_right _ _⟩

/-! ## The UNKN0 decoder -/

/-- A NEC frame with jitter, read by the UNKN0 decoder. -/
theorem unkn0_classify_nec {J : Nat} (hJ : J ≤ 199) {s : CString} {ws : List LircT}
    (h : Jittered necWave J s ws) :
    ws.map unkn0.classify = .neutral :: .datum true :: bodySymbols s := by
  obtain ⟨hT0, hT1, _, hhead, _, _⟩ := necDurations
  obtain ⟨_, _, hTS, hTD⟩ := unkn0Durations
  change List.Forall₂ (Jitters J) (playback (necTheadPulse :: necTheadSpace ::
    (s.chars.flatMap necWave.bit ++ [necT0]))) ws at h
  rw [playback_cons_cons] at h
  obtain ⟨hp, rest, hhp, hrest, rfl⟩ := List.forall₂_cons_left_iff.mp h
  obtain ⟨hs, rest', hhs, hrest', rfl⟩ := List.forall₂_cons_left_iff.mp hrest
  have hspace0 : lenght necT0 + J ≤ unkn0TD := by omega
  have hlow1 : unkn0TD + J < lenght necT1 := by omega
  have hhigh1 : lenght necT1 + J ≤ unkn0TS := by omega
  obtain ⟨bits, tp, rfl, hbits, htp, _⟩ := bitsOnAir_jitter necWave
    (fun _ => True) (· ≤ unkn0TD) (fun d => unkn0TD < d ∧ d ≤ unkn0TS) (by decide) (by decide)
    (fun _ _ => trivial) (fun _ hd => hd.le hspace0) (fun _ hd => hd.within hlow1 hhigh1) hrest'
  have hpulse : unkn0.classify hp = .neutral :=
    unkn0_classify_pulse (hhp.1.trans (isPulse_or_pulseBit _))
  have hspace : isPulse hs = false := hhs.1.trans (by decide)
  have hlong : unkn0TD < lenght hs ∧ lenght hs ≤ unkn0TS := hhs.2.within (by omega) (by omega)
  have hmark : unkn0.classify hs = .datum true := by
    rw [Protocol.classify_space (by rw [hspace]; exact decide_eq_false (by omega)) hspace]
    exact congrArg Symbol.datum (decide_eq_true hlong.1)
  rw [List.map_cons, List.map_cons, hpulse, hmark, List.map_append, unkn0_classify_bits hbits,
    List.map_singleton, unkn0_classify_pulse htp]
  rfl

/-- An emission and the silence after it, read by the UNKN0 decoder: a body and
one delimiter. -/
theorem Emission.Heard.unkn0_classify {J : Nat} (hJ : J ≤ 199) {e : Emission}
    (h : e.Heard J) : ∃ body, Framing.NoDelimiter body ∧
      Framing.payload body = e.sender.heardByUnkn0 e.string ∧
      (e.received ++ [space e.gap]).map unkn0.classify = Framing.framed 0 body := by
  obtain ⟨sender, s, ws, g⟩ := e
  obtain ⟨_, hws, hgap, hg⟩ := h
  dsimp only at hws hgap hg ⊢
  cases sender with
  | scale =>
      exact ⟨bodySymbols s, noDelimiter_bodySymbols s, payload_bodySymbols s,
        (hws.unkn0OnAir hJ).classify hgap hg⟩
  | remote =>
      have hsilence : unkn0.classify (space g) = .delimiter :=
        unkn0_classify_gap (isPulse_space hg) (by rw [lenght_space hg]; exact hgap)
      refine ⟨.neutral :: .datum true :: bodySymbols s, ?_, ?_, ?_⟩
      · have hbody := noDelimiter_bodySymbols s
        simpa [Framing.NoDelimiter] using hbody
      · rw [Framing.payload_cons_neutral, Framing.payload_cons_datum, payload_bodySymbols]
        rfl
      · rw [List.map_append, unkn0_classify_nec hJ hws, List.map_singleton, hsilence]
        rfl

/-! ## The NEC decoder -/

/-- Where ones are as short as zeros, every character is a zero. -/
theorem bitsOnAir_zeros {pulse zero one : Nat → Prop} {cs : List Char} {ws : List LircT}
    (h : BitsOnAir pulse zero zero cs ws) :
    BitsOnAir pulse zero one (zeros cs.length).chars ws := by
  induction h with
  | nil => exact .nil
  | @cons c p s cs ws hp hpd hs hsd _ ih =>
      rw [ite_self] at hsd
      exact .cons hp hpd hs hsd ih

/-- Pulses up to `NEC_TS` and spaces of admitted durations are the characters. -/
theorem nec_classify_bits {cs : List Char} {ws : List LircT}
    (h : BitsOnAir (· ≤ necTS) (· ≤ necTD) (fun d => necTD < d ∧ d ≤ necTS) cs ws) :
    ws.map nec.classify = cs.flatMap fun c => [.neutral, .datum (c == '1')] := by
  have hTD : necTD < necTS := by decide
  exact h.classify (P := nec) (fun d hd => decide_eq_false (Nat.not_lt.mpr hd))
    (fun d hd => ⟨decide_eq_false (Nat.not_lt.mpr (Nat.le_trans hd (Nat.le_of_lt hTD))),
      Nat.not_lt.mpr hd⟩)
    (fun d hd => ⟨decide_eq_false (Nat.not_lt.mpr hd.2), hd.1⟩)

/-- The scale, read by the NEC decoder: every bit is a zero. -/
theorem nec_classify_scale {J : Nat} (hJ : J ≤ 120) {s : CString} {ws : List LircT}
    (h : Jittered unkn0Wave J s ws) :
    ws.map nec.classify = bodySymbols (zeros s.strlen) := by
  obtain ⟨_, _, _, _, hTS, hTD⟩ := necDurations
  obtain ⟨hT0, hT1, _, _⟩ := unkn0Durations
  have hpulse0 : lenght unkn0T0 + J ≤ necTS := by omega
  have hspace0 : lenght unkn0T0 + J ≤ necTD := by omega
  have hspace1 : lenght unkn0T1 + J ≤ necTD := by omega
  obtain ⟨bits, tp, rfl, hbits, htp, htpd⟩ := bitsOnAir_jitter unkn0Wave
    (· ≤ necTS) (· ≤ necTD) (· ≤ necTD) (by decide) (by decide) (fun _ hd => hd.le hpulse0)
    (fun _ hd => hd.le hspace0) (fun _ hd => hd.le hspace1) h
  have hzeros : BitsOnAir (· ≤ necTS) (· ≤ necTD) (fun d => necTD < d ∧ d ≤ necTS)
      (zeros s.strlen).chars bits := bitsOnAir_zeros hbits
  rw [List.map_append, nec_classify_bits hzeros, List.map_singleton,
    nec_classify_short_pulse htp htpd]
  rfl

/-- An emission and the silence after it, read by the NEC decoder. -/
theorem Emission.Heard.nec_classify {J : Nat} (hJ : J ≤ 120) {e : Emission}
    (h : e.Heard J) : ∃ lead body, Framing.NoDelimiter body ∧
      Framing.payload body = e.sender.heardByNec e.string ∧
      (e.received ++ [space e.gap]).map nec.classify = Framing.framed lead body := by
  obtain ⟨sender, s, ws, g⟩ := e
  obtain ⟨_, hws, hgap, hg⟩ := h
  dsimp only at hws hgap hg ⊢
  have hlong : necTS < g := Nat.lt_trans (by decide) hgap
  cases sender with
  | remote =>
      exact ⟨2, bodySymbols s, noDelimiter_bodySymbols s, payload_bodySymbols s,
        (hws.necOnAir (by omega)).classify hlong hg⟩
  | scale =>
      have hsilence : nec.classify (space g) = .delimiter :=
        nec_classify_long (by rw [lenght_space hg]; exact hlong)
      refine ⟨0, bodySymbols (zeros s.strlen), noDelimiter_bodySymbols _, ?_, ?_⟩
      · rw [payload_bodySymbols, zeros, CString.bits_ofBits]
        rfl
      · rw [List.map_append, nec_classify_scale hJ hws, List.map_singleton, hsilence]
        rfl

/-! ## What the decoders take -/

/-- Neither decoder takes nothing for a frame. -/
theorem Emission.Heard.heard_ne_nil {J : Nat} {e : Emission} (h : e.Heard J) :
    e.sender.heardByNec e.string ≠ [] ∧ e.sender.heardByUnkn0 e.string ≠ [] := by
  have hlen := Nat.pos_of_ne_zero h.nonempty
  have hbits : e.string.bits ≠ [] := by
    intro hnil
    rw [← CString.length_bits, hnil] at hlen
    exact absurd hlen (Nat.lt_irrefl 0)
  cases e.sender with
  | remote => exact ⟨hbits, List.cons_ne_nil _ _⟩
  | scale =>
      refine ⟨fun hnil => ?_, hbits⟩
      have hlength := congrArg List.length hnil
      change (List.replicate e.string.strlen false).length = 0 at hlength
      rw [List.length_replicate] at hlength
      omega

/-- A decoder with an empty buffer that reads every emission as one framed body
takes the payloads. -/
theorem takes_framed {P : Protocol} {st : DecodeState} (hst : Holds st [])
    (heard : Emission → List Bool) {es : List Emission}
    (hes : ∀ e ∈ es, heard e ≠ [] ∧ ∃ lead body, Framing.NoDelimiter body ∧
      Framing.payload body = heard e ∧
      (e.received ++ [space e.gap]).map P.classify = Framing.framed lead body) :
    (P.wordMachine.run st (onAir es)).2 =
      es.map fun e => CString.ofBits ((heard e).take capacity) := by
  rw [(run_refines P hst (onAir es)).2]
  obtain ⟨frames, hbodies, hclass, hclosed⟩ : ∃ frames : List (Nat × List (Symbol Bool)),
      (∀ f ∈ frames, Framing.NoDelimiter f.2) ∧
      (onAir es).map P.classify = frames.flatMap (fun f => Framing.framed f.1 f.2) ∧
      (frames.flatMap fun f => Framing.close ((Framing.payload f.2).take capacity)) =
        es.map fun e => (heard e).take capacity := by
    induction es with
    | nil => exact ⟨[], by simp, rfl, rfl⟩
    | cons e es ih =>
        obtain ⟨frames, hbodies, hclass, hclosed⟩ :=
          ih fun e' he' => hes e' (List.mem_cons_of_mem e he')
        obtain ⟨hne, lead, body, hbody, hpayload, hword⟩ := hes e List.mem_cons_self
        have htake : (heard e).take capacity ≠ [] := by
          rw [Ne, List.take_eq_nil_iff, not_or]
          exact ⟨by decide, hne⟩
        refine ⟨(lead, body) :: frames, ?_, ?_, ?_⟩
        · intro f hf
          rcases List.mem_cons.mp hf with rfl | hf
          · exact hbody
          · exact hbodies f hf
        · rw [onAir, List.flatMap_cons, List.map_append, hword, List.flatMap_cons]
          exact congrArg _ hclass
        · rw [List.flatMap_cons, hclosed, hpayload, Framing.close_of_ne_nil htake]
          rfl
  rw [hclass, Framing.run_framed_leads hbodies, hclosed, List.map_map]
  rfl

/-- What the UNKN0 decoder takes of remotes and the scale. -/
theorem unkn0_hears {J : Nat} (hJ : J ≤ 199) {st : DecodeState} (hst : Holds st [])
    {es : List Emission} (hes : ∀ e ∈ es, e.Heard J) :
    (unkn0.wordMachine.run st (onAir es)).2 =
      es.map fun e => CString.ofBits ((e.sender.heardByUnkn0 e.string).take capacity) := by
  refine takes_framed hst (fun e => e.sender.heardByUnkn0 e.string) fun e he => ?_
  exact ⟨(hes e he).heard_ne_nil.2, 0, (hes e he).unkn0_classify hJ⟩

/-- What the NEC decoder takes of them. -/
theorem nec_hears {J : Nat} (hJ : J ≤ 120) {st : DecodeState} (hst : Holds st [])
    {es : List Emission} (hes : ∀ e ∈ es, e.Heard J) :
    (nec.wordMachine.run st (onAir es)).2 =
      es.map fun e => CString.ofBits ((e.sender.heardByNec e.string).take capacity) := by
  refine takes_framed hst (fun e => e.sender.heardByNec e.string) fun e he => ?_
  exact ⟨(hes e he).heard_ne_nil.1, (hes e he).nec_classify hJ⟩

/-- A reachable state with nothing in the buffer. -/
theorem holds_nil_of_reachable {P : Protocol} {st : DecodeState} (hst : Reachable P st)
    (hidx : st.idx = 0) : Holds st [] := by
  obtain ⟨bits, hbits⟩ := hst.holds
  have hlen := hbits.idx_eq
  rw [hidx] at hlen
  obtain rfl := List.length_eq_zero_iff.mp hlen.symm
  exact hbits

/-- Both decoders in one room: from empty buffers each takes one frame for every
frame that was sent, in order.  A decoder reads its own protocol as it was sent;
the UNKN0 decoder reads a NEC frame with a `1` in front, and the NEC decoder
reads zeros for the scale. -/
theorem decoders_in_one_room {J : Nat} (hJ : J ≤ 120) {necState unkn0State : DecodeState}
    (hnec : Reachable nec necState) (hunkn0 : Reachable unkn0 unkn0State)
    (hempty : necState.idx = 0 ∧ unkn0State.idx = 0)
    {es : List Emission} (hes : ∀ e ∈ es, e.Heard J) :
    Takes nec necState (onAir es)
        (es.map fun e => CString.ofBits ((e.sender.heardByNec e.string).take capacity)) ∧
      Takes unkn0 unkn0State (onAir es)
        (es.map fun e => CString.ofBits ((e.sender.heardByUnkn0 e.string).take capacity)) := by
  constructor
  · rw [← nec_hears hJ (holds_nil_of_reachable hnec hempty.1) hes]
    exact ⟨_, receiveFrames_eq_run nec necState (onAir es)⟩
  · rw [← unkn0_hears (by omega) (holds_nil_of_reachable hunkn0 hempty.2) hes]
    exact ⟨_, receiveFrames_eq_run unkn0 unkn0State (onAir es)⟩

/-- A remote and then the scale, as they were sent. -/
theorem decoders_in_one_room_two :
    let s := CString.ofBits [true, false]
    let es := [Emission.played .remote s, Emission.played .scale s]
    Takes nec DecodeState.start (onAir es) [s, CString.ofBits [false, false]] ∧
      Takes unkn0 DecodeState.start (onAir es) [CString.ofBits [true, true, false], s] := by
  intro s es
  have hes : ∀ e ∈ es, e.Heard 0 := by
    simp only [es, List.forall_mem_cons, List.not_mem_nil, false_implies, implies_true, and_true]
    exact ⟨.played .remote (by decide) 0, .played .scale (by decide) 0⟩
  exact decoders_in_one_room (Nat.zero_le _) .start .start ⟨rfl, rfl⟩ hes

/-! ## The measurements -/

/-- What the daemon did, in order. -/
def Starfrit.events (s : Starfrit) : List Event := s.trace.flatMap Processed.events

/-- The scale's own emissions. -/
def ofScale (es : List Emission) : List Emission :=
  es.filter fun e => decide (e.sender = .scale)

/-- A frame that is not accepted is not seen in what the daemon does. -/
theorem events_of_not_accepted (clock : Nat → Int) (s : Starfrit) {buff : CString}
    (h : starfritRaw buff = none) :
    (starfritFrame clock s buff).events = s.events := by
  rw [starfritFrame_of_not_accepted clock s h, Starfrit.events, List.flatMap_append,
    List.flatMap_singleton, List.append_nil]
  rfl

/-- Two daemons that agree but for the record of rejected frames. -/
def SameMeasurements (s t : Starfrit) : Prop :=
  s.measurements = t.measurements ∧ s.timeCalls = t.timeCalls ∧ s.events = t.events

/-- They stay so on the same frame. -/
theorem SameMeasurements.frame (clock : Nat → Int) {s t : Starfrit}
    (h : SameMeasurements s t) (buff : CString) :
    SameMeasurements (starfritFrame clock s buff) (starfritFrame clock t buff) := by
  obtain ⟨hmeasurements, hcalls, hevents⟩ := h
  cases hraw : starfritRaw buff with
  | none =>
      refine ⟨?_, ?_, ?_⟩
      · rw [starfritFrame_of_not_accepted clock s hraw,
          starfritFrame_of_not_accepted clock t hraw]
        exact hmeasurements
      · rw [starfritFrame_of_not_accepted clock s hraw,
          starfritFrame_of_not_accepted clock t hraw]
        exact hcalls
      · rw [events_of_not_accepted clock s hraw, events_of_not_accepted clock t hraw]
        exact hevents
  | some raw =>
      obtain ⟨f, hf, _⟩ := accepted_of_starfritRaw hraw
      rw [starfritFrame_of_accepted clock s hf, starfritFrame_of_accepted clock t hf,
        hmeasurements, hcalls]
      refine ⟨rfl, rfl, ?_⟩
      rw [Starfrit.events, Starfrit.events, List.flatMap_append, List.flatMap_append]
      exact congrArg (· ++ _) hevents

/-- They stay so when one of them takes a frame that is not accepted. -/
theorem SameMeasurements.skip (clock : Nat → Int) {s t : Starfrit}
    (h : SameMeasurements s t) {buff : CString} (hraw : starfritRaw buff = none) :
    SameMeasurements (starfritFrame clock s buff) t := by
  refine ⟨?_, ?_, (events_of_not_accepted clock s hraw).trans h.2.2⟩
  · rw [starfritFrame_of_not_accepted clock s hraw]
    exact h.1
  · rw [starfritFrame_of_not_accepted clock s hraw]
    exact h.2.1

/-- A frame of a remote is not a measurement. -/
theorem starfritRaw_remote (s : CString) :
    starfritRaw (CString.ofBits ((Sender.remote.heardByUnkn0 s).take capacity)) = none := by
  refine starfritRaw_of_not_passesTrailer (not_passesTrailer ?_ (List.length_take_le _ _))
  rfl

/-- The frames of remotes can be left out. -/
theorem sameMeasurements_foldl (clock : Nat → Int) (es : List Emission) {s t : Starfrit}
    (h : SameMeasurements s t) :
    SameMeasurements
      ((es.map fun e => CString.ofBits ((e.sender.heardByUnkn0 e.string).take capacity)).foldl
        (starfritFrame clock) s)
      (((ofScale es).map fun e =>
        CString.ofBits ((e.sender.heardByUnkn0 e.string).take capacity)).foldl
        (starfritFrame clock) t) := by
  induction es generalizing s t with
  | nil => exact h
  | cons e es ih =>
      obtain ⟨sender, string, received, gap⟩ := e
      cases sender with
      | scale => exact ih (h.frame clock _)
      | remote => exact ih (h.skip clock (starfritRaw_remote string))

/-- The accepted frames are those of the scale alone. -/
theorem acceptedFrom_ofScale (clock : Nat → Int) (k : Nat) (es : List Emission) :
    acceptedFrom clock k
        (es.map fun e => CString.ofBits ((e.sender.heardByUnkn0 e.string).take capacity)) =
      acceptedFrom clock k ((ofScale es).map fun e =>
        CString.ofBits ((e.sender.heardByUnkn0 e.string).take capacity)) := by
  rw [acceptedFrom, acceptedFrom, List.filterMap_map, List.filterMap_map, ofScale,
    List.filterMap_filter]
  congr 1
  apply List.filterMap_congr
  intro e _
  obtain ⟨sender, string, received, gap⟩ := e
  cases sender with
  | scale => rw [if_pos (by simp)]
  | remote =>
      rw [if_neg (by simp), Function.comp_apply]
      exact starfritRaw_remote string

/-- Remotes do not disturb the scale.  Whatever frames they send between those of
the scale, with a silence behind every frame and however the words are cut: a daemon
with an empty decoder gets through all of them exactly if it gets through those of
the scale, and then it has measured and pushed what these alone make it measure and
push. -/
theorem remotes_undisturbing {J : Nat} (hJ : J ≤ 199) (clock : Nat → Int)
    {st : DecodeState} (hst : Reachable unkn0 st) (hidx : st.idx = 0) (s : Starfrit)
    {es : List Emission} (hes : ∀ e ∈ es, e.Heard J) {blocks alone : List (List LircT)}
    (hblocks : blocks.flatten = onAir es) (halone : alone.flatten = onAir (ofScale es)) :
    ((∃ out, starfritBlocksInt clock (st, s) blocks = .ok out) ↔
        ∃ out, starfritBlocksInt clock (st, s) alone = .ok out) ∧
      ∀ st1 st2 s1 s2, starfritBlocksInt clock (st, s) blocks = .ok (st1, s1) →
        starfritBlocksInt clock (st, s) alone = .ok (st2, s2) → SameMeasurements s1 s2 := by
  have hempty := holds_nil_of_reachable hst hidx
  have hscale : ∀ e ∈ ofScale es, e.Heard J := fun e he => hes e (List.mem_of_mem_filter he)
  have hok : ∀ blocks : List (List LircT),
      (∃ out, starfritBlocksInt clock (st, s) blocks = .ok out) ↔
        ScaleFits clock s (unkn0.wordMachine.run st blocks.flatten).2 := by
    intro blocks
    simp only [starfritBlocksInt_ok_iff, starfritBlocks_eq_run]
    exact ⟨fun ⟨_, h⟩ => h.1, fun h => ⟨_, h, rfl⟩⟩
  refine ⟨?_, ?_⟩
  · rw [hok, hok, hblocks, halone, unkn0_hears hJ hempty hes, unkn0_hears hJ hempty hscale,
      scaleFits_iff_measures, scaleFits_iff_measures, acceptedFrom_ofScale]
  · intro st1 st2 s1 s2 hboth hone
    have hboth := (starfritBlocksInt_ok_iff.mp hboth).2
    have hone := (starfritBlocksInt_ok_iff.mp hone).2
    rw [starfritBlocks_eq_run, hblocks, unkn0_hears hJ hempty hes] at hboth
    rw [starfritBlocks_eq_run, halone, unkn0_hears hJ hempty hscale] at hone
    obtain ⟨_, rfl⟩ := Prod.mk.inj (Except.ok.inj hboth)
    obtain ⟨_, rfl⟩ := Prod.mk.inj (Except.ok.inj hone)
    exact sameMeasurements_foldl (intClock clock) es ⟨rfl, rfl, rfl⟩

/-- A remote between two frames of the scale, in two blocks. -/
theorem remotes_undisturbing_between :
    let s := CString.ofBits [true, false]
    let es := [Emission.played .scale s, Emission.played .remote s, Emission.played .scale s]
    let blocks := [(onAir es).take 3, (onAir es).drop 3]
    ((∃ out, starfritBlocksInt (fun _ => 0) (DecodeState.start, Starfrit.start) blocks = .ok out) ↔
        ∃ out, starfritBlocksInt (fun _ => 0) (DecodeState.start, Starfrit.start)
          [onAir (ofScale es)] = .ok out) ∧
      ∀ st1 st2 s1 s2,
        starfritBlocksInt (fun _ => 0) (DecodeState.start, Starfrit.start) blocks =
          .ok (st1, s1) →
        starfritBlocksInt (fun _ => 0) (DecodeState.start, Starfrit.start)
          [onAir (ofScale es)] = .ok (st2, s2) → SameMeasurements s1 s2 := by
  intro s es blocks
  have hes : ∀ e ∈ es, e.Heard 0 := by
    simp only [es, List.forall_mem_cons, List.not_mem_nil, false_implies, implies_true, and_true]
    exact ⟨.played .scale (by decide) 0, .played .remote (by decide) 0,
      .played .scale (by decide) 0⟩
  exact remotes_undisturbing (Nat.zero_le _) (fun _ => 0) .start rfl Starfrit.start hes
    (by simp [blocks]) (by simp)

end IrBridge.Scale
