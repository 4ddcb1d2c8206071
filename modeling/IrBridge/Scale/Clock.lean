/-
  Scale/Clock.lean --- the daemon's receiver in `int`.

  The dates and the counter of `starfrit_process` are `int`: the clock is cut to
  one, and the difference of two dates and the next count are signed operations,
  without meaning where they leave the range.  `measureInt` is the branch with
  these operations; inside their range it is `measure` (`measureInt_ok_iff`).

  From program start the range is left exactly when two consecutive readings for
  accepted frames are too far apart, or a run is too long (`scaleFits_start_iff`).
  A clock that passes 2^31 - 1 seconds jumps back by 2^32 when it is cut, so that
  the first measurement after that moment is such a reading.
-/
import IrBridge.Codec.RoundTrip
import IrBridge.Foundation.Blocks
import IrBridge.Scale.Measurements

set_option autoImplicit false

namespace IrBridge.Scale

open IrBridge.Foundation
open IrBridge.Codec
open IrBridge.Platform

/-! ## The branch -/

/-- The branch of `starfrit_process` for an accepted weight, with `t` already an
`int`. -/
def measureInt (m : Measurements) (weight : Rat) (t : Int) :
    Except Fault (Measurements × List Event) := do
  let elapsed ← signed (t - m.lastMeasurementDate)
  let m := if elapsed > 15 then resetMeasurements m else m
  let m := { m with lastMeasurementDate := t }
  if m.lastMeasurement = weight then
    let count ← signed (m.samevalueCount + 1)
    let m := { m with samevalueCount := count }
    return (m,
      (if m.samevalueCount < samevalueCnt then
        [.progress weight m.samevalueCount (t - m.lastMeasurementDate)] else []) ++
      (if m.samevalueCount = samevalueCnt ∧ weight ≠ 0 then [.push weight] else []))
  else
    return ({ resetMeasurements m with lastMeasurement := weight }, [])

/-- The elapsed time is an `int`, and so is the next count if there is one. -/
def MeasureFits (m : Measurements) (weight : Rat) (t : Int) : Prop :=
  FitsInt (t - m.lastMeasurementDate) ∧
    (t - m.lastMeasurementDate ≤ 15 → m.lastMeasurement = weight →
      FitsInt (m.samevalueCount + 1))

/-- The branch has a meaning exactly there, and then that of exact numbers. -/
theorem measureInt_ok_iff {m : Measurements} {weight : Rat} {t : Int}
    {r : Measurements × List Event} :
    measureInt m weight t = .ok r ↔ MeasureFits m weight t ∧ r = measure m weight t := by
  rw [measureInt, measure, MeasureFits]
  by_cases hdate : FitsInt (t - m.lastMeasurementDate)
  · rw [signed_of_fits hdate, ok_bind]
    dsimp only
    -- A count that starts again does not leave the range.
    have hcounts : (t - m.lastMeasurementDate ≤ 15 → m.lastMeasurement = weight →
          FitsInt (m.samevalueCount + 1)) ↔
        ((if t - m.lastMeasurementDate > 15 then resetMeasurements m else m).lastMeasurement =
            weight →
          FitsInt ((if t - m.lastMeasurementDate > 15 then resetMeasurements m
            else m).samevalueCount + 1)) := by
      by_cases htimeout : t - m.lastMeasurementDate > 15
      · have hone : FitsInt ((resetMeasurements m).samevalueCount + 1) := by
          simp only [resetMeasurements]
          decide
        rw [if_pos htimeout]
        exact iff_of_true (fun hle => absurd hle (Int.not_le.mpr htimeout)) fun _ => hone
      · rw [if_neg htimeout]
        exact ⟨fun h => h (Int.not_lt.mp htimeout), fun h _ => h⟩
    rw [hcounts, and_iff_right hdate]
    generalize (if t - m.lastMeasurementDate > 15 then resetMeasurements m else m) = m'
    by_cases hlast : m'.lastMeasurement = weight
    · rw [if_pos hlast, if_pos hlast, forall_prop_of_true hlast]
      by_cases hcount : FitsInt (m'.samevalueCount + 1)
      · rw [signed_of_fits hcount, ok_bind, pure_eq_ok]
        exact ⟨fun h => ⟨hcount, (Except.ok.inj h).symm⟩, fun h => congrArg _ h.2.symm⟩
      · rw [signed_of_not_fits hcount, error_bind]
        exact iff_of_false (fun h => by cases h) fun h => hcount h.1
    · rw [if_neg hlast, if_neg hlast, pure_eq_ok]
      exact ⟨fun h => ⟨fun heq => absurd heq hlast, (Except.ok.inj h).symm⟩,
        fun h => congrArg _ h.2.symm⟩
  · rw [signed_of_not_fits hdate, error_bind]
    exact iff_of_false (fun h => by cases h) fun h => hdate h.1.1

/-! ## Frames -/

/-- `(int)time(NULL)`. -/
def intClock (clock : Nat → Int) (k : Nat) : Int := toInt (clock k)

/-- What follows the tests, in `int`. -/
def starfritRecordInt (clock : Nat → Int) (s : Starfrit) (buff : CString) :
    Verdict → Except Fault Starfrit
  | .accepted f => do
      let next ← measureInt s.measurements f.weight (intClock clock s.timeCalls)
      return {
        measurements := next.1
        timeCalls := s.timeCalls + 1
        trace := s.trace ++ [⟨buff, .accepted f, next.2⟩] }
  | verdict => .ok { s with trace := s.trace ++ [⟨buff, verdict, []⟩] }

/-- The body of the receive loop, in `int`. -/
def starfritFrameInt (clock : Nat → Int) (s : Starfrit) (buff : CString) :
    Except Fault Starfrit :=
  starfritRecordInt clock s buff (starfritVerdict buff)

/-- The numbers that a frame leads to are values of `int`. -/
def FrameFits (clock : Nat → Int) (s : Starfrit) (buff : CString) : Prop :=
  ∀ f, starfritVerdict buff = .accepted f →
    MeasureFits s.measurements f.weight (intClock clock s.timeCalls)

/-- Then, and only then, the frame is processed, and as with exact numbers. -/
theorem starfritFrameInt_ok_iff {clock : Nat → Int} {s t : Starfrit} {buff : CString} :
    starfritFrameInt clock s buff = .ok t ↔
      FrameFits clock s buff ∧ t = starfritFrame (intClock clock) s buff := by
  rw [starfritFrameInt, starfritFrame, FrameFits]
  generalize starfritVerdict buff = verdict
  have hquiet : ∀ {s t u : Starfrit} {P : Prop}, P →
      ((.ok u : Except Fault Starfrit) = .ok t ↔ P ∧ t = u) := fun hp =>
    ⟨fun h => ⟨hp, (Except.ok.inj h).symm⟩, fun h => congrArg _ h.2.symm⟩
  cases verdict with
  | other => exact hquiet (s := s) fun _ h => by cases h
  | rejected f => exact hquiet (s := s) fun _ h => by cases h
  | accepted f =>
      have hfits : (∀ g, Verdict.accepted f = .accepted g →
            MeasureFits s.measurements g.weight (intClock clock s.timeCalls)) ↔
          MeasureFits s.measurements f.weight (intClock clock s.timeCalls) :=
        ⟨fun h => h f rfl, fun h g hg => Verdict.accepted.inj hg ▸ h⟩
      rw [hfits, starfritRecordInt, starfritRecord]
      constructor
      · intro h
        obtain ⟨next, hnext, hdone⟩ := bind_eq_ok h
        obtain ⟨hmeasure, rfl⟩ := measureInt_ok_iff.mp hnext
        exact ⟨hmeasure, (Except.ok.inj hdone).symm⟩
      · rintro ⟨hmeasure, rfl⟩
        rw [measureInt_ok_iff.mpr ⟨hmeasure, rfl⟩, ok_bind, pure_eq_ok]

/-- Along a list of frames no number leaves the range of `int`. -/
def ScaleFits (clock : Nat → Int) (s : Starfrit) (frames : List CString) : Prop :=
  Guarded (starfritFrame (intClock clock)) (FrameFits clock) s frames

/-- `starfrit_process(buffer, len)`, with what is done with a frame. -/
def starfritLoop {τ : Type} (body : τ → CString → Except Fault τ) (buffer : List Byte)
    (len : Nat) (now : DecodeState × τ) : Except Fault (DecodeState × τ) :=
  receiveLoopIn unkn0 (fun s st => body s st.taken) (wordsOf buffer) len now.1 now.2

/-- `starfrit_process` in `int`. -/
def starfritProcessInt (clock : Nat → Int) :
    List Byte → Nat → DecodeState × Starfrit → Except Fault (DecodeState × Starfrit) :=
  starfritLoop (starfritFrameInt clock)

/-- The daemon in `int` fed with blocks of whole words, one call each. -/
def starfritBlocksInt (clock : Nat → Int) (now : DecodeState × Starfrit)
    (blocks : List (List LircT)) : Except Fault (DecodeState × Starfrit) :=
  blocks.foldlM
    (fun now block => starfritProcessInt clock (bytesOf block) (sizeofLircT * block.length) now)
    now

/-- On whole words the loop is its body on the frames of the word machine. -/
theorem starfritLoop_eq_run {τ : Type} (body : τ → CString → Except Fault τ)
    (now : DecodeState × τ) (words : List LircT) :
    starfritLoop body (bytesOf words) (sizeofLircT * words.length) now =
      ((unkn0.wordMachine.run now.1 words).2.foldlM body now.2).map
        ((unkn0.wordMachine.run now.1 words).1, ·) := by
  rw [starfritLoop, wordsOf_bytesOf, sizeofLircT, receiveLoopIn_eq_run]

/-- The daemon in `int` goes through the blocks if and only if no number leaves the
range, and then it does what the daemon with exact numbers does. -/
theorem starfritBlocksInt_ok_iff {clock : Nat → Int} {st : DecodeState} {s : Starfrit}
    {blocks : List (List LircT)} {out : DecodeState × Starfrit} :
    starfritBlocksInt clock (st, s) blocks = .ok out ↔
      ScaleFits clock s (unkn0.wordMachine.run st blocks.flatten).2 ∧
        starfritBlocks (intClock clock) (st, s) blocks = .ok out := by
  have hrun : starfritBlocksInt clock (st, s) blocks =
      ((unkn0.wordMachine.run st blocks.flatten).2.foldlM (starfritFrameInt clock) s).map
        ((unkn0.wordMachine.run st blocks.flatten).1, ·) := by
    rw [← List.flatMap_id]
    exact foldlM_blocksIn unkn0 _ id blocks
      (fun now block _ => starfritLoop_eq_run (starfritFrameInt clock) now block) st s
  rw [hrun, starfritBlocks_eq_run]
  generalize unkn0.wordMachine.run st blocks.flatten = run
  have hframes : ∀ t, run.2.foldlM (starfritFrameInt clock) s = .ok t ↔
      ScaleFits clock s run.2 ∧ t = run.2.foldl (starfritFrame (intClock clock)) s :=
    fun t => foldlM_guarded fun _ _ _ => starfritFrameInt_ok_iff
  constructor
  · intro h
    cases hfold : run.2.foldlM (starfritFrameInt clock) s with
    | error e =>
        rw [hfold] at h
        cases h
    | ok t =>
        rw [hfold] at h
        obtain ⟨hfits, rfl⟩ := (hframes t).mp hfold
        exact ⟨hfits, h⟩
  · rintro ⟨hfits, h⟩
    rw [(hframes _).mpr ⟨hfits, rfl⟩]
    exact h

/-! ## Runs -/

/-- Two consecutive readings are apart by a value of `int`. -/
def DatesFit (a b : Accepted) : Prop := FitsInt (b.date - a.date)

instance (a b : Accepted) : Decidable (DatesFit a b) := inferInstanceAs (Decidable (FitsInt _))

theorem measure_date (m : Measurements) (weight : Rat) (t : Int) :
    (measure m weight t).1.lastMeasurementDate = t := by
  unfold measure
  generalize (if t - m.lastMeasurementDate > 15 then resetMeasurements m else m) = m'
  dsimp only
  split <;> rfl

/-- Frames fit as their measurements do. -/
theorem scaleFits_iff_measures (clock : Nat → Int) (s : Starfrit) (frames : List CString) :
    ScaleFits clock s frames ↔
      Guarded (fun m a => (measureMachine.step m a).1)
        (fun m a => MeasureFits m (tenths a.raw) a.date) s.measurements
        (acceptedFrom (intClock clock) s.timeCalls frames) := by
  rw [ScaleFits]
  induction frames generalizing s with
  | nil => exact Iff.rfl
  | cons buff frames ih =>
      rw [Guarded, ih]
      cases hraw : starfritRaw buff with
      | none =>
          have hfits : FrameFits clock s buff := by
            intro f hf
            rw [starfritRaw, hf] at hraw
            cases hraw
          rw [acceptedFrom_cons_none _ _ hraw, starfritFrame_of_not_accepted _ s hraw]
          exact and_iff_right hfits
      | some raw =>
          obtain ⟨f, hf, rfl⟩ := accepted_of_starfritRaw hraw
          have hfits : FrameFits clock s buff ↔
              MeasureFits s.measurements (tenths f.raw) (intClock clock s.timeCalls) :=
            ⟨fun h => h f hf, fun h g hg => by
              obtain rfl := Verdict.accepted.inj (hf.symm.trans hg)
              exact h⟩
          rw [acceptedFrom_cons_some _ _ hraw, starfritFrame_of_accepted _ s hf, Guarded, hfits]
          exact Iff.rfl

/-- What a frame needs, from the globals as the previous frame and its position. -/
theorem measureFits_iff {m : Measurements} {prev : Option (Accepted × Nat)}
    (h : Represents m prev) (a : Accepted) :
    MeasureFits m (tenths a.raw) a.date ↔ FitsInt (a.date - m.lastMeasurementDate) ∧
      ∀ p ∈ ((Runs.counter sameRun).step prev a).2, (p.2 : Int) ≤ intMax := by
  have hmax : intMax = 2147483647 := rfl
  refine and_congr_right fun _ => ?_
  cases prev with
  | none =>
      have hlast : m.lastMeasurement = -1 := h
      rw [hlast]
      refine iff_of_true (fun _ heq => absurd heq.symm (tenths_ne_sentinel a.raw)) ?_
      exact List.forall_mem_singleton.mpr (by omega)
  | some p =>
      obtain ⟨b, n⟩ := p
      obtain ⟨hlast, hcount, hdate⟩ := h
      rw [hlast, hcount, hdate, tenths_inj]
      cases hrel : sameRun b a with
      | false =>
          rw [Runs.counter_step_break sameRun n hrel]
          simp only [sameRun, Bool.and_eq_false_iff, beq_eq_false_iff_ne,
            decide_eq_false_iff_not] at hrel
          refine iff_of_true (fun htime hraw => ?_) ?_
          · exact (hrel.elim (· hraw) (· htime)).elim
          · exact List.forall_mem_singleton.mpr (by omega)
      | true =>
          rw [Runs.counter_step_same sameRun n hrel]
          simp only [sameRun, Bool.and_eq_true, beq_iff_eq, decide_eq_true_eq] at hrel
          rw [forall_prop_of_true hrel.2, forall_prop_of_true hrel.1, List.forall_mem_singleton,
            FitsInt]
          omega

/-- The measurements of a stream fit when the dates do, one after another, and no
position in a run is too high. -/
theorem guarded_measures_iff {m : Measurements} {prev : Option (Accepted × Nat)}
    (h : Represents m prev) (frames : List Accepted) :
    Guarded (fun m a => (measureMachine.step m a).1)
        (fun m a => MeasureFits m (tenths a.raw) a.date) m frames ↔
      (m.lastMeasurementDate :: frames.map Accepted.date).IsChain (fun d e => FitsInt (e - d)) ∧
        ∀ p ∈ ((Runs.counter sameRun).run prev frames).2, (p.2 : Int) ≤ intMax := by
  induction frames generalizing m prev with
  | nil => exact iff_of_true trivial ⟨List.isChain_singleton _, by simp⟩
  | cons a frames ih =>
      have hnext := (measure_refines m prev a h).1
      have hdate : (measureMachine.step m a).1.lastMeasurementDate = a.date :=
        measure_date m (tenths a.raw) a.date
      rw [Guarded, ih hnext, measureFits_iff h a, hdate, List.map_cons, List.isChain_cons_cons,
        Transducer.run_cons, List.forall_mem_append]
      exact and_and_and_comm

/-- Positions in runs are below their lengths. -/
theorem numbered_le_iff (frames : List Accepted) :
    (∀ p ∈ Runs.numbered sameRun frames, (p.2 : Int) ≤ intMax) ↔
      ∀ run ∈ frames.splitBy sameRun, run.length ≤ 2 ^ 31 := by
  have hmax : intMax = 2147483647 := rfl
  rw [Runs.numbered, List.forall_mem_flatMap]
  refine forall₂_congr fun run _ => ?_
  constructor
  · intro hpos
    by_contra hlong
    have hmem : (run[2 ^ 31], 2 ^ 31) ∈ run.zipIdx :=
      List.mk_mem_zipIdx_iff_getElem?.mpr (List.getElem?_eq_getElem (by omega))
    have hle := hpos _ hmem
    simp only at hle
    omega
  · intro hshort p hp
    have hlt := List.snd_lt_of_mem_zipIdx hp
    omega

/-- From program start: the numbers of the daemon stay in the range of `int` if and
only if consecutive readings for accepted frames are apart by a value of `int` and
no run has more than 2^31 frames. -/
theorem scaleFits_start_iff (clock : Nat → Int) (frames : List CString) :
    ScaleFits clock Starfrit.start frames ↔
      (acceptedFrom (intClock clock) 0 frames).IsChain DatesFit ∧
        ∀ run ∈ (acceptedFrom (intClock clock) 0 frames).splitBy sameRun,
          run.length ≤ 2 ^ 31 := by
  have hdates : ∀ a ∈ acceptedFrom (intClock clock) 0 frames, FitsInt a.date := by
    intro a ha
    obtain ⟨i, hi, rfl⟩ := List.mem_mapIdx.mp ha
    exact fitsInt_toInt _
  rw [scaleFits_iff_measures]
  show Guarded _ _ Measurements.start (acceptedFrom (intClock clock) 0 frames) ↔ _
  generalize acceptedFrom (intClock clock) 0 frames = accepted at hdates ⊢
  have hstart : Represents Measurements.start none := rfl
  rw [guarded_measures_iff hstart, Runs.counter_run, numbered_le_iff]
  refine and_congr_left fun _ => ?_
  -- The first reading is compared with 0.
  rw [List.isChain_cons, List.isChain_map Accepted.date]
  refine and_iff_right fun d hd => ?_
  obtain ⟨a, ha, rfl⟩ := Option.map_eq_some_iff.mp ((List.head?_map ..).symm.trans hd)
  show FitsInt (a.date - 0)
  rw [Int.sub_zero]
  exact hdates a (List.mem_of_mem_head? ha)

/-! ## The result -/

/-- The daemon, from its initial state, takes the frames the receive loop takes from
the blocks and pushes exactly on the eleventh frame of each maximal run whose raw
value is not zero, with that weight.  Frames that are not accepted neither push nor
count. -/
def PushesAtEleventh (clock : Nat → Int) (blocks : List (List LircT)) : Prop :=
  ∃ st frames s,
    receiveBlocks unkn0 DecodeState.start blocks = .ok (st, frames) ∧
    starfritBlocksInt clock (DecodeState.start, Starfrit.start) blocks = .ok (st, s) ∧
    s.trace.map Processed.frame = frames ∧
    (∀ p ∈ s.trace, p.verdict = starfritVerdict p.frame ∧
      (starfritRaw p.frame = none → p.pushes = [])) ∧
    s.acceptedPushes =
      ((acceptedFrom (intClock clock) 0 frames).splitBy sameRun).flatMap (List.mapIdx pushAt) ∧
    ∀ run ∈ (acceptedFrom (intClock clock) 0 frames).splitBy sameRun,
      (run.mapIdx pushAt).flatten.length ≤ 1

/-- For streams with fewer than 2^31 frames in a run: it does so if and only if the
readings for consecutive accepted frames are apart by a value of `int`. -/
theorem pushes_at_eleventh_iff (clock : Nat → Int) {blocks : List (List LircT)}
    {st : DecodeState} {frames : List CString}
    (hframes : receiveBlocks unkn0 DecodeState.start blocks = .ok (st, frames))
    (hruns : ∀ run ∈ (acceptedFrom (intClock clock) 0 frames).splitBy sameRun,
      run.length < 2 ^ 31) :
    PushesAtEleventh clock blocks ↔
      (acceptedFrom (intClock clock) 0 frames).IsChain DatesFit := by
  have hrun : (unkn0.wordMachine.run DecodeState.start blocks.flatten).2 = frames := by
    have hmachine := receiveBlocks_eq_run unkn0 DecodeState.start blocks
    rw [Transducer.runBlocks_eq_run, hframes] at hmachine
    exact (congrArg Prod.snd (Except.ok.inj hmachine)).symm
  have hfits : ScaleFits clock Starfrit.start frames ↔
      (acceptedFrom (intClock clock) 0 frames).IsChain DatesFit := by
    rw [scaleFits_start_iff]
    exact and_iff_left fun run hmem => Nat.le_of_lt (hruns run hmem)
  rw [← hfits]
  constructor
  · rintro ⟨_, _, _, _, hdaemon, _⟩
    rw [← hrun]
    exact (starfritBlocksInt_ok_iff.mp hdaemon).1
  · intro hscale
    obtain ⟨st', frames', s, hframes', hdaemon, hrest⟩ :=
      exact_pushes (intClock clock) blocks
    rw [hframes] at hframes'
    obtain ⟨rfl, rfl⟩ := Prod.mk.inj (Except.ok.inj hframes')
    exact ⟨st, frames, s, hframes,
      starfritBlocksInt_ok_iff.mpr ⟨by rwa [hrun], hdaemon⟩, hrest⟩

/-- 88.3 kg. -/
def scaleBits : CString :=
  CString.ofBits ((BitPacking.unpack [0x54#8, 0x7F#8, 0xFC#8, 0x8C#8, 0x5C#8]).take 39)

/-- 88.3 kg on the air. -/
def scaleFrame : List LircT := playback (unkn0Wave.words scaleBits.chars) ++ [space 77000]

theorem starfritRaw_scaleBits : starfritRaw scaleBits = some 883 := by
  decide +kernel

/-- Any number of these frames is taken. -/
theorem receiveBlocks_scaleFrame (n : Nat) :
    ∃ final, receiveBlocks unkn0 DecodeState.start (List.replicate n scaleFrame) =
      .ok (final, List.replicate n scaleBits) := by
  have hair : ∀ n, List.Forall₂ (fun f ws => Unkn0OnAir f.1 ws)
      (List.replicate n (scaleBits, 77000))
      (List.replicate n (playback (unkn0Wave.words scaleBits.chars))) := by
    intro n
    induction n with
    | zero => exact .nil
    | succ n ih => exact .cons (unkn0OnAir_playback scaleBits) ih
  have hall : ∀ f ∈ List.replicate n (scaleBits, 77000), f = (scaleBits, 77000) :=
    fun f hf => List.eq_of_mem_replicate hf
  obtain ⟨final, htakes⟩ := unkn0_takes (List.replicate n (scaleBits, 77000)) .start
    (fun f hf => by rw [hall f hf]; decide) (fun f hf => by rw [hall f hf]; decide) (hair n)
  have hfirst : firstBits scaleBits = scaleBits := by decide
  rw [withGaps, List.zipWith_replicate', List.map_replicate, hfirst] at htakes
  exact ⟨final, (receiveBlocks_flatten unkn0 DecodeState.start _).trans htakes⟩

theorem length_run_le (clock : Nat → Int) (k : Nat) (frames : List CString) :
    ∀ run ∈ (acceptedFrom clock k frames).splitBy sameRun, run.length ≤ frames.length := by
  intro run hrun
  have hsub : run.Sublist (acceptedFrom clock k frames) := by
    have hflatten := List.sublist_flatten_of_mem hrun
    rwa [List.flatten_splitBy] at hflatten
  have hlen : (acceptedFrom clock k frames).length ≤ frames.length := by
    rw [acceptedFrom, List.length_mapIdx]
    exact List.length_filterMap_le _ _
  exact Nat.le_trans hsub.length_le hlen

/-- Eleven frames, a second apart. -/
theorem pushes_at_eleventh_eleven :
    PushesAtEleventh (fun k => k) (List.replicate 11 scaleFrame) ↔
      (acceptedFrom (intClock fun k => k) 0 (List.replicate 11 scaleBits)).IsChain DatesFit := by
  obtain ⟨st, hframes⟩ := receiveBlocks_scaleFrame 11
  refine pushes_at_eleventh_iff (fun k => k) hframes fun run hrun => ?_
  have hlen := length_run_le _ _ _ run hrun
  rw [List.length_replicate] at hlen
  omega

/-- The last second of the `int` clock, and what follows. -/
def rollover (k : Nat) : Int := 2147483647 + k

/-- Two frames at that moment: the difference of their dates is not an `int`. -/
theorem pushes_fail_at_rollover :
    (∃ st frames,
      receiveBlocks unkn0 DecodeState.start (List.replicate 2 scaleFrame) = .ok (st, frames) ∧
      ∀ run ∈ (acceptedFrom (intClock rollover) 0 frames).splitBy sameRun,
        run.length < 2 ^ 31) ∧
    ¬ PushesAtEleventh rollover (List.replicate 2 scaleFrame) := by
  obtain ⟨st, hframes⟩ := receiveBlocks_scaleFrame 2
  have hruns : ∀ run ∈ (acceptedFrom (intClock rollover) 0
      (List.replicate 2 scaleBits)).splitBy sameRun, run.length < 2 ^ 31 := by
    intro run hrun
    have hlen := length_run_le _ _ _ run hrun
    rw [List.length_replicate] at hlen
    omega
  refine ⟨⟨st, _, hframes, hruns⟩, ?_⟩
  have haccepted : acceptedFrom (intClock rollover) 0 (List.replicate 2 scaleBits) =
      [⟨883, 2147483647⟩, ⟨883, -2147483648⟩] := by
    simp [acceptedFrom, List.replicate, starfritRaw_scaleBits, intClock, rollover, toInt]
  rw [pushes_at_eleventh_iff rollover hframes hruns, haccepted]
  decide

end IrBridge.Scale
