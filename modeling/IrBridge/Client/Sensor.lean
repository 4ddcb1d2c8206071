/-
  Client/Sensor.lean --- the angles that the Android client sends.

  While the angle is measured, the listener is called for every reading of the
  two sensors.  It keeps the last values of both, makes an angle of them and sends
  it, unless it noted one in the last 500 ms.  The clock is that of the day, which
  may be set forwards and backwards.

  What it does with the time is `Throttle.machine`, and what it sends is what that
  lets through while there is a connection.
-/
import IrBridge.Client.CreateFigure
import IrBridge.Foundation.Throttle

set_option autoImplicit false

namespace IrBridge.Client

open IrBridge.Foundation
open IrBridge.Codec
open IrBridge.Platform
open IrBridge.Scale

/-! ## The listener -/

/-- `event.sensor.getType ()`. -/
inductive SensorType where
  | accelerometer
  | magneticField
  | other
  deriving DecidableEq, Repr

/-- A call of the listener: the event, the time of day, and whether `mTCP` is set. -/
structure SensorEvent (V : Type) where
  type : SensorType
  values : V
  time : Int
  connected : Bool

/-- What the listener keeps in the activity. -/
structure Sensing (V : Type) where
  aValues : Option V
  mValues : Option V
  mLastDate : Option Int

/-- An array passed to `mTCP.send`, and when. -/
structure Sent where
  date : Int
  ir : Option (List Byte)
  deriving DecidableEq

section Listener

variable {V : Type}

/-- `sensor`. -/
def Sensing.sensor (s : Sensing V) : Sensing V := { s with mLastDate := none }

/-- The `switch` of `onSensorChanged`. -/
def Sensing.take (s : Sensing V) (event : SensorEvent V) : Sensing V :=
  match event.type with
  | .accelerometer => { s with aValues := some event.values }
  | .magneticField => { s with mValues := some event.values }
  | .other => s

/-- `onSensorChanged`, once there is an angle. -/
def Sensing.notice (dm : DataModel) (s : Sensing V) (event : SensorEvent V) (angle : BitVec 32) :
    Except Fault (Sensing V × List Sent) :=
  let mLastDate :=
    match s.mLastDate with
    | some last => if event.time - last > 500 then none else some last
    | none => none
  match mLastDate with
  | some last => .ok ({ s with mLastDate := some last }, [])
  | none => do
      let s := { s with mLastDate := some event.time }
      if event.connected then
        let ir ← createFigure dm angle
        return (s, [⟨event.time, ir⟩])
      else
        return (s, [])

/-- `onSensorChanged`.  The angle in tenths of a degree is what the library of the
sensors and the arithmetic on its result make of the two values. -/
def onSensorChanged (dm : DataModel) (angle : V → V → BitVec 32) (s : Sensing V)
    (event : SensorEvent V) : Except Fault (Sensing V × List Sent) :=
  let s := s.take event
  match s.aValues, s.mValues with
  | some aValues, some mValues => s.notice dm event (angle aValues mValues)
  | _, _ => .ok (s, [])

/-- One call after another. -/
def onSensorEvents (dm : DataModel) (angle : V → V → BitVec 32) :
    Sensing V → List (SensorEvent V) → Except Fault (Sensing V × List Sent)
  | s, [] => .ok (s, [])
  | s, event :: events => do
      let (s, new) ← onSensorChanged dm angle s event
      let (s, sent) ← onSensorEvents dm angle s events
      return (s, new ++ sent)

/-! ## What is measured -/

/-- An angle that was measured. -/
structure Measured where
  date : Int
  connected : Bool
  angle : BitVec 32

/-- The array that is sent for it. -/
def Measured.sent (m : Measured) : Sent :=
  ⟨m.date, some (bytesOf (unkn0Wave.words (figureBits m.angle).chars))⟩

/-- What an event adds, once both values are known. -/
def Sensing.measuredAt (angle : V → V → BitVec 32) (s : Sensing V) (event : SensorEvent V) :
    List Measured :=
  match s.aValues, s.mValues with
  | some aValues, some mValues => [⟨event.time, event.connected, angle aValues mValues⟩]
  | _, _ => []

/-- The angles of a list of events, each with the values known by then. -/
def measured (angle : V → V → BitVec 32) : Sensing V → List (SensorEvent V) → List Measured
  | _, [] => []
  | s, event :: events =>
      (s.take event).measuredAt angle event ++ measured angle (s.take event) events

/-- Those that the listener notes, starting from the last one. -/
def noted (angle : V → V → BitVec 32) (s : Sensing V) (events : List (SensorEvent V)) :
    List Measured :=
  ((Throttle.machine Measured.date 500).run s.mLastDate (measured angle s events)).2

@[simp] theorem Sensing.take_mLastDate (s : Sensing V) (event : SensorEvent V) :
    (s.take event).mLastDate = s.mLastDate := by
  rw [Sensing.take]
  split <;> rfl

/-- The values that are kept do not depend on the date. -/
theorem measured_mLastDate (angle : V → V → BitVec 32) (s : Sensing V) (last : Option Int)
    (events : List (SensorEvent V)) :
    measured angle { s with mLastDate := last } events = measured angle s events := by
  induction events generalizing s with
  | nil => rfl
  | cons event events ih =>
      have htake : ({ s with mLastDate := last } : Sensing V).take event =
          { s.take event with mLastDate := last } := by
        rw [Sensing.take, Sensing.take]
        split <;> rfl
      rw [measured, htake, ih, measured]
      rfl

/-- What is sent of the angles that were noted. -/
def sentOf (new : List Measured) : List Sent := (new.filter Measured.connected).map Measured.sent

/-- An angle is noted if the machine lets it through, and then it is sent while
there is a connection. -/
theorem Sensing.notice_eq (dm : DataModel) (s : Sensing V) (event : SensorEvent V)
    (angle : BitVec 32) :
    s.notice dm event angle =
      .ok ({ s with mLastDate := ((Throttle.machine Measured.date 500).step s.mLastDate
          ⟨event.time, event.connected, angle⟩).1 },
        sentOf ((Throttle.machine Measured.date 500).step s.mLastDate
          ⟨event.time, event.connected, angle⟩).2) := by
  obtain ⟨aValues, mValues, mLastDate⟩ := s
  have hsend : (⟨aValues, mValues, none⟩ : Sensing V).notice dm event angle =
      .ok (⟨aValues, mValues, some event.time⟩,
        sentOf [⟨event.time, event.connected, angle⟩]) := by
    simp only [Sensing.notice, createFigure_eq, ok_bind]
    cases hconnected : event.connected with
    | false => rfl
    | true => rfl
  cases mLastDate with
  | none =>
      rw [Throttle.step_of_due (fun t ht => absurd ht (Option.not_mem_none t))]
      exact hsend
  | some last =>
      by_cases hlate : event.time - last > 500
      · have hdue : Throttle.Due Measured.date 500 (some last)
            ⟨event.time, event.connected, angle⟩ := by
          intro t ht
          obtain rfl := Option.some.inj ht
          exact hlate
        rw [Throttle.step_of_due hdue, ← hsend]
        simp only [Sensing.notice, if_pos hlate]
      · have hdue : ¬ Throttle.Due Measured.date 500 (some last)
            ⟨event.time, event.connected, angle⟩ := fun hdue => hlate (hdue last rfl)
        rw [Throttle.step_of_not_due hdue]
        simp only [Sensing.notice, if_neg hlate]
        rfl

/-- A call does so with the angle of its event, if there is one. -/
theorem onSensorChanged_eq (dm : DataModel) (angle : V → V → BitVec 32) (s : Sensing V)
    (event : SensorEvent V) :
    onSensorChanged dm angle s event =
      .ok ({ s.take event with
          mLastDate := ((Throttle.machine Measured.date 500).run s.mLastDate
            ((s.take event).measuredAt angle event)).1 },
        sentOf ((Throttle.machine Measured.date 500).run s.mLastDate
          ((s.take event).measuredAt angle event)).2) := by
  rw [← s.take_mLastDate event, onSensorChanged]
  obtain ⟨aValues, mValues, mLastDate⟩ := s.take event
  cases aValues with
  | none => rfl
  | some aValues =>
      cases mValues with
      | none => rfl
      | some mValues =>
          refine (Sensing.notice_eq dm _ event _).trans ?_
          rw [Sensing.measuredAt, Transducer.run_cons, Transducer.run_nil, List.append_nil]

/-- The events are noted and sent one after another. -/
theorem onSensorEvents_eq (dm : DataModel) (angle : V → V → BitVec 32) (s : Sensing V)
    (events : List (SensorEvent V)) :
    ∃ final, onSensorEvents dm angle s events = .ok (final, sentOf (noted angle s events)) := by
  induction events generalizing s with
  | nil => exact ⟨s, rfl⟩
  | cons event events ih =>
      obtain ⟨final, hrest⟩ := ih { s.take event with
        mLastDate := ((Throttle.machine Measured.date 500).run s.mLastDate
          ((s.take event).measuredAt angle event)).1 }
      refine ⟨final, ?_⟩
      rw [onSensorEvents, onSensorChanged_eq, ok_bind]
      dsimp only
      rw [hrest, ok_bind, pure_eq_ok, noted, measured_mLastDate, noted, measured,
        Transducer.run_append, sentOf, sentOf, sentOf, List.filter_append, List.map_append]

/-! ## The result -/

/-- The angles up to 90 degrees whose check value does not fit. -/
theorem carries_angle {v : BitVec 32} (hrange : v.toNat ≤ 900) :
    Carries v ↔ v = 212#32 ∨ v = 467#32 ∨ v = 722#32 := by
  have hmsb := msbOf_eq v
  have hlsb := lsbOf_eq v
  rw [Carries, ← BitVec.toNat_inj, ← BitVec.toNat_inj, ← BitVec.toNat_inj]
  simp only [BitVec.toNat_ofNat]
  have hfour : v.toNat / 256 = 0 ∨ v.toNat / 256 = 1 ∨ v.toNat / 256 = 2 ∨ v.toNat / 256 = 3 := by
    omega
  rcases hfour with h | h | h | h <;> omega

/-- The others are read as they were sent, by the daemon and by a phone. -/
theorem angle_received {v : BitVec 32} (hrange : v.toNat ≤ 900) :
    figureVerdict (figureBits v) = starfritVerdict (figureBits v) ∧
      ((∃ f, starfritVerdict (figureBits v) = .accepted f ∧ f.raw = v.toNat) ↔
        v ∉ [212#32, 467#32, 722#32]) := by
  have hraw := receivedFigure_raw v
  rw [BitVec.toInt_eq_toNat_of_lt (by omega)] at hraw
  have hsame : (receivedFigure v).raw = v.toNat := by omega
  have hthree : v ∉ [212#32, 467#32, 722#32] ↔ ¬ Carries v := by
    rw [carries_angle hrange]
    simp
  rw [figureVerdict_eq, starfritVerdict_eq, hthree, figureOutcome]
  refine ⟨rfl, ?_⟩
  split
  · rename_i hcarries
    simp [hcarries]
  · rename_i hfits
    simp [hfits, hsame]

/-- From when the sensors are switched on, whatever the clock does: the angles that
are sent, which are those noted while there is a connection, are more than 500 ms
apart, and no angle waits longer than that since one was noted.  Every angle up
to 90 degrees is received as it was sent, but three. -/
theorem angles_sent (dm : DataModel) (angle : V → V → BitVec 32) (s : Sensing V)
    (events : List (SensorEvent V)) :
    ∃ final, onSensorEvents dm angle s.sensor events =
        .ok (final, sentOf (noted angle s.sensor events)) ∧
      ((noted angle s.sensor events).Pairwise fun m n => m.date + 500 < n.date) ∧
      (∀ m ∈ measured angle s events, ∃ n ∈ noted angle s.sensor events,
        m.date ≤ n.date + 500) ∧
      (∀ start stop : Int, start ≤ stop →
        (((sentOf (noted angle s.sensor events)).filter fun x =>
          start ≤ x.date ∧ x.date ≤ stop).length : Int) * 501 ≤ stop - start + 501) ∧
      ∀ m ∈ noted angle s.sensor events, m.angle.toNat ≤ 900 →
        figureVerdict (figureBits m.angle) = starfritVerdict (figureBits m.angle) ∧
        ((∃ f, starfritVerdict (figureBits m.angle) = .accepted f ∧ f.raw = m.angle.toNat) ↔
          m.angle ∉ [212#32, 467#32, 722#32]) := by
  obtain ⟨final, hrun⟩ := onSensorEvents_eq dm angle s.sensor events
  have hspaced := (Throttle.run_spaced Measured.date (by decide : (0 : Int) ≤ 500) none
    (measured angle s.sensor events)).2
  refine ⟨final, hrun, hspaced, ?_, ?_, fun m _ hrange => angle_received hrange⟩
  · intro m hm
    rw [← measured_mLastDate angle s none] at hm
    rcases Throttle.run_near Measured.date (by decide : (0 : Int) ≤ 500) none hm with
      ⟨t, ht, _⟩ | hnear
    · cases ht
    · exact hnear
  · intro start stop hle
    have hsent : (sentOf (noted angle s.sensor events)).Pairwise
        fun x y => x.date + 500 < y.date := List.pairwise_map.mpr (hspaced.filter _)
    exact Throttle.length_within hsent (by decide) hle

end Listener

end IrBridge.Client
