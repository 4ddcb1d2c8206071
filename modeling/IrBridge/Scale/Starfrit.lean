/-
  Scale/Starfrit.lean --- the daemon's receiver, `starfrit_process`.

  The receive loop of the daemon takes UNKN0 frames, examines each one and feeds
  the measurements to three globals: the last weight, how often it was repeated
  and when it was last seen.  The tenth repeat of a weight pushes it.

  Weights are kept as exact tenths; they are equal exactly when the raw values
  are.  The clock is a function of the number of `time` calls made so far.  The
  counter and the difference of two dates are exact numbers here; the same text in
  `int` is in Scale/Clock.lean, with the condition under which it is this one.
-/
import IrBridge.Codec.Receive
import IrBridge.Scale.Figure

set_option autoImplicit false

namespace IrBridge.Scale

open IrBridge.Foundation
open IrBridge.Codec
open IrBridge.Platform

/-! ## Measurements -/

/-- `SAMEVALUE_CNT`. -/
def samevalueCnt : Int := 10

/-- `last_measurement`, `samevalue_count` and `last_measurement_date`. -/
structure Measurements where
  lastMeasurement : Rat
  samevalueCount : Int
  lastMeasurementDate : Int
  deriving DecidableEq

/-- Their initial values. -/
def Measurements.start : Measurements := ⟨-1, 0, 0⟩

/-- `reset_measurements`. -/
def resetMeasurements (m : Measurements) : Measurements :=
  { m with lastMeasurement := -1, samevalueCount := 0 }

/-- What the daemon does with an accepted weight. -/
inductive Event where
  /-- `syslog(LOG_NOTICE,"startfrit %0.2fKg %i/%i %is", ...)` -/
  | progress (weight : Rat) (count : Int) (elapsed : Int)
  /-- `push_measurement(weight)` -/
  | push (weight : Rat)
  deriving DecidableEq

/-- The branch of `starfrit_process` for an accepted weight, at time `t`, with exact
numbers. -/
def measure (m : Measurements) (weight : Rat) (t : Int) : Measurements × List Event :=
  let m := if t - m.lastMeasurementDate > 15 then resetMeasurements m else m
  let m := { m with lastMeasurementDate := t }
  if m.lastMeasurement = weight then
    let m := { m with samevalueCount := m.samevalueCount + 1 }
    (m,
      (if m.samevalueCount < samevalueCnt then
        [.progress weight m.samevalueCount (t - m.lastMeasurementDate)] else []) ++
      (if m.samevalueCount = samevalueCnt ∧ weight ≠ 0 then [.push weight] else []))
  else
    ({ resetMeasurements m with lastMeasurement := weight }, [])

/-! ## Frames -/

/-- A frame that was taken, what was made of it, and what the daemon did. -/
structure Processed where
  frame : CString
  verdict : Verdict
  events : List Event
  deriving DecidableEq

/-- The daemon's globals with the number of clock readings so far, and the
frames processed. -/
structure Starfrit where
  measurements : Measurements
  timeCalls : Nat
  trace : List Processed
  deriving DecidableEq

/-- The daemon before the first frame. -/
def Starfrit.start : Starfrit := ⟨Measurements.start, 0, []⟩

/-- What follows the tests: an accepted weight is measured, with one reading of
the clock. -/
def starfritRecord (clock : Nat → Int) (s : Starfrit) (buff : CString) :
    Verdict → Starfrit
  | .accepted f =>
      let next := measure s.measurements f.weight (clock s.timeCalls)
      { measurements := next.1
        timeCalls := s.timeCalls + 1
        trace := s.trace ++ [⟨buff, .accepted f, next.2⟩] }
  | verdict => { s with trace := s.trace ++ [⟨buff, verdict, []⟩] }

/-- The body of the receive loop. -/
def starfritFrame (clock : Nat → Int) (s : Starfrit) (buff : CString) : Starfrit :=
  starfritRecord clock s buff (starfritVerdict buff)

/-- `starfrit_process(buffer, len)`.  `buffer` holds the bytes read from the
device. -/
def starfritProcess (clock : Nat → Int) (buffer : List Byte) (len : Nat)
    (now : DecodeState × Starfrit) : Except Fault (DecodeState × Starfrit) :=
  receiveLoop unkn0 (fun s st => starfritFrame clock s st.taken) (wordsOf buffer) len
    now.1 now.2

/-- `starfrit_process(buffer, c)`: the result of the read becomes a `size_t`,
whatever it is. -/
def starfritRead (dm : DataModel) (clock : Nat → Int) (c : ReadResult)
    (now : DecodeState × Starfrit) : Except Fault (DecodeState × Starfrit) :=
  starfritProcess clock c.bytes (toSize dm c.result) now

/-- The daemon fed with blocks of whole words, one `starfrit_process` call
each. -/
def starfritBlocks (clock : Nat → Int) (now : DecodeState × Starfrit)
    (blocks : List (List LircT)) : Except Fault (DecodeState × Starfrit) :=
  blocks.foldlM
    (fun now block => starfritProcess clock (bytesOf block) (sizeofLircT * block.length) now)
    now

/-- The daemon sees the frames of the word machine, whatever the blocks. -/
theorem starfritBlocks_eq_run (clock : Nat → Int) (st : DecodeState) (s : Starfrit)
    (blocks : List (List LircT)) :
    starfritBlocks clock (st, s) blocks =
      .ok ((unkn0.wordMachine.run st blocks.flatten).1,
        (unkn0.wordMachine.run st blocks.flatten).2.foldl (starfritFrame clock) s) := by
  rw [← List.flatMap_id]
  apply foldlM_blocks unkn0 _ id blocks
  intro now block _
  rw [starfritProcess, wordsOf_bytesOf, sizeofLircT, receiveLoop_eq_run, id]

/-- A frame that is not accepted changes nothing but the record. -/
theorem starfritFrame_of_not_accepted (clock : Nat → Int) (s : Starfrit) {buff : CString}
    (h : starfritRaw buff = none) :
    starfritFrame clock s buff =
      { s with trace := s.trace ++ [⟨buff, starfritVerdict buff, []⟩] } := by
  rw [starfritFrame]
  rw [starfritRaw] at h
  generalize starfritVerdict buff = verdict at h ⊢
  cases verdict with
  | other => rfl
  | rejected f => rfl
  | accepted f => cases h

/-- An accepted frame reads the clock once. -/
theorem starfritFrame_of_accepted (clock : Nat → Int) (s : Starfrit) {buff : CString}
    {f : Figure} (h : starfritVerdict buff = .accepted f) :
    starfritFrame clock s buff =
      { measurements := (measure s.measurements f.weight (clock s.timeCalls)).1
        timeCalls := s.timeCalls + 1
        trace := s.trace ++
          [⟨buff, .accepted f, (measure s.measurements f.weight (clock s.timeCalls)).2⟩] } := by
  rw [starfritFrame, h]
  rfl

theorem accepted_of_starfritRaw {buff : CString} {raw : Nat}
    (h : starfritRaw buff = some raw) :
    ∃ f, starfritVerdict buff = .accepted f ∧ f.raw = raw := by
  rw [starfritRaw] at h
  generalize starfritVerdict buff = verdict at h ⊢
  cases verdict with
  | other => cases h
  | rejected f => cases h
  | accepted f => exact ⟨f, rfl, Option.some.inj h⟩

/-- A frame adds one entry to the record. -/
theorem starfritFrame_trace (clock : Nat → Int) (s : Starfrit) (buff : CString) :
    ∃ events, (starfritFrame clock s buff).trace =
        s.trace ++ [⟨buff, starfritVerdict buff, events⟩] ∧
      (starfritRaw buff = none → events = []) := by
  rw [starfritFrame, starfritRaw]
  generalize starfritVerdict buff = verdict
  cases verdict with
  | other => exact ⟨[], rfl, fun _ => rfl⟩
  | rejected f => exact ⟨[], rfl, fun _ => rfl⟩
  | accepted f => exact ⟨_, rfl, fun h => by cases h⟩

/-- Every taken frame is recorded, with the verdict of the tests. -/
theorem trace_foldl (clock : Nat → Int) (s : Starfrit) (frames : List CString) :
    ∃ new, (frames.foldl (starfritFrame clock) s).trace = s.trace ++ new ∧
      new.map Processed.frame = frames ∧
      ∀ p ∈ new, p.verdict = starfritVerdict p.frame ∧
        (starfritRaw p.frame = none → p.events = []) := by
  induction frames generalizing s with
  | nil => exact ⟨[], by simp, rfl, by simp⟩
  | cons frame frames ih =>
      obtain ⟨events, htrace, hquiet⟩ := starfritFrame_trace clock s frame
      obtain ⟨new, hnew, hframes, hrest⟩ := ih (starfritFrame clock s frame)
      refine ⟨⟨frame, starfritVerdict frame, events⟩ :: new, ?_, ?_, ?_⟩
      · rw [List.foldl_cons, hnew, htrace, List.append_assoc, List.singleton_append]
      · rw [List.map_cons, hframes]
      · intro p hp
        rcases List.mem_cons.mp hp with rfl | hp
        · exact ⟨rfl, hquiet⟩
        · exact hrest p hp

end IrBridge.Scale
