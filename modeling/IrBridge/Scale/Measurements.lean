/-
  Scale/Measurements.lean --- when a measurement is pushed.

  Cut the accepted frames into maximal runs: neighbours with the same raw value
  that are at most 15 seconds apart.  The globals `last_measurement` and
  `samevalue_count` are the previous frame and its position in its run, so that
  the counter reaches `SAMEVALUE_CNT` exactly on the eleventh frame of a run.

  The sentinel -1 is no weight; it forces the `new value` branch, which is where
  a run starts.
-/
import IrBridge.Foundation.Runs
import IrBridge.Scale.Starfrit

set_option autoImplicit false

namespace IrBridge.Scale

open IrBridge.Foundation
open IrBridge.Codec
open IrBridge.Platform

/-! ## Accepted frames -/

/-- An accepted frame: its raw value and the clock when it was processed. -/
structure Accepted where
  raw : Nat
  date : Int
  deriving DecidableEq

/-- Two consecutive accepted frames belong to one run. -/
def sameRun (a b : Accepted) : Bool := a.raw == b.raw && decide (b.date - a.date ≤ 15)

/-- The accepted frames among `frames`, with the clock read from call `k` on. -/
def acceptedFrom (clock : Nat → Int) (k : Nat) (frames : List CString) : List Accepted :=
  (frames.filterMap starfritRaw).mapIdx fun i raw => ⟨raw, clock (k + i)⟩

theorem acceptedFrom_cons_none (clock : Nat → Int) (k : Nat) {buff : CString}
    (h : starfritRaw buff = none) (frames : List CString) :
    acceptedFrom clock k (buff :: frames) = acceptedFrom clock k frames := by
  rw [acceptedFrom, List.filterMap_cons_none h]
  rfl

theorem acceptedFrom_cons_some (clock : Nat → Int) (k : Nat) {buff : CString} {raw : Nat}
    (h : starfritRaw buff = some raw) (frames : List CString) :
    acceptedFrom clock k (buff :: frames) =
      ⟨raw, clock k⟩ :: acceptedFrom clock (k + 1) frames := by
  rw [acceptedFrom, List.filterMap_cons_some h, List.mapIdx_cons, acceptedFrom]
  simp only [Nat.add_zero, Nat.add_assoc, Nat.add_comm 1]

/-! ## The globals count positions -/

/-- The measurements as a machine over accepted frames. -/
def measureMachine : Transducer Measurements Accepted (List Event) where
  step m a :=
    let next := measure m (tenths a.raw) a.date
    (next.1, [next.2])

theorem measureMachine_step (m : Measurements) (a : Accepted) :
    measureMachine.step m a =
      ((measure m (tenths a.raw) a.date).1, [(measure m (tenths a.raw) a.date).2]) :=
  rfl

/-- The globals hold the previous accepted frame and its position in its run;
the sentinel stands for none. -/
def Represents (m : Measurements) : Option (Accepted × Nat) → Prop
  | none => m.lastMeasurement = -1
  | some (a, n) =>
      m.lastMeasurement = tenths a.raw ∧ m.samevalueCount = n ∧ m.lastMeasurementDate = a.date

/-- What happens on the frame at position `n` of its run. -/
def eventsAt (a : Accepted) (n : Nat) : List Event :=
  if n = 0 then []
  else
    (if n < 10 then [.progress (tenths a.raw) n 0] else []) ++
      (if n = 10 ∧ a.raw ≠ 0 then [.push (tenths a.raw)] else [])

/-- After a timeout, or on another weight, a run starts. -/
theorem measure_new {m : Measurements} {weight : Rat} {t : Int} (hweight : weight ≠ -1)
    (h : t - m.lastMeasurementDate > 15 ∨ m.lastMeasurement ≠ weight) :
    measure m weight t = (⟨weight, 0, t⟩, []) := by
  unfold measure
  by_cases htimeout : t - m.lastMeasurementDate > 15
  · simp [htimeout, resetMeasurements, hweight.symm]
  · have hother := h.resolve_left htimeout
    simp [htimeout, resetMeasurements, hother]

/-- On the same weight in time the run goes on. -/
theorem measure_repeat {m : Measurements} {a : Accepted} {t : Int} {n : Nat}
    (htime : ¬ t - m.lastMeasurementDate > 15) (hlast : m.lastMeasurement = tenths a.raw)
    (hcount : m.samevalueCount = n) :
    measure m (tenths a.raw) t =
      (⟨tenths a.raw, (n + 1 : Nat), t⟩, eventsAt a (n + 1)) := by
  have hlt : ((n : Int) + 1 < samevalueCnt) ↔ n + 1 < 10 := by
    unfold samevalueCnt
    omega
  have heq : ((n : Int) + 1 = samevalueCnt) ↔ n + 1 = 10 := by
    unfold samevalueCnt
    omega
  have hzero : tenths a.raw ≠ 0 ↔ a.raw ≠ 0 := not_congr tenths_eq_zero
  unfold measure
  simp only [if_neg htime, hlast, hcount, if_true, hlt, heq, hzero, Int.sub_self]
  simp [eventsAt]

/-- One accepted frame moves the globals as it moves the position counter. -/
theorem measure_refines (m : Measurements) (prev : Option (Accepted × Nat)) (a : Accepted)
    (h : Represents m prev) :
    Represents (measureMachine.step m a).1 ((Runs.counter sameRun).step prev a).1 ∧
      (measureMachine.step m a).2 =
        ((Runs.counter sameRun).step prev a).2.map fun p => eventsAt p.1 p.2 := by
  have hsentinel := tenths_ne_sentinel a.raw
  have hstart : ∀ prev', (Runs.counter sameRun).step prev' a = (some (a, 0), [(a, 0)]) →
      (t : a.date - m.lastMeasurementDate > 15 ∨ m.lastMeasurement ≠ tenths a.raw) →
      Represents (measureMachine.step m a).1 ((Runs.counter sameRun).step prev' a).1 ∧
        (measureMachine.step m a).2 =
          ((Runs.counter sameRun).step prev' a).2.map fun p => eventsAt p.1 p.2 := by
    intro prev' hstep hnew
    rw [hstep, measureMachine_step, measure_new hsentinel hnew]
    exact ⟨⟨rfl, rfl, rfl⟩, rfl⟩
  cases prev with
  | none =>
      have hlast : m.lastMeasurement = -1 := h
      exact hstart none rfl (Or.inr (by rw [hlast]; exact hsentinel.symm))
  | some p =>
      obtain ⟨b, n⟩ := p
      obtain ⟨hlast, hcount, hdate⟩ := h
      cases hrel : sameRun b a with
      | false =>
          refine hstart _ (Runs.counter_step_break sameRun n hrel) ?_
          rw [hlast, hdate, Ne, tenths_inj]
          simp only [sameRun, Bool.and_eq_false_iff, beq_eq_false_iff_ne,
            decide_eq_false_iff_not, Int.not_le] at hrel
          exact hrel.symm
      | true =>
          rw [Runs.counter_step_same sameRun n hrel]
          simp only [sameRun, Bool.and_eq_true, beq_iff_eq, decide_eq_true_eq] at hrel
          obtain ⟨hraw, htime⟩ := hrel
          have hintime : ¬ a.date - m.lastMeasurementDate > 15 := by
            rw [hdate]
            omega
          rw [measureMachine_step, measure_repeat hintime (by rw [hlast, hraw]) hcount]
          exact ⟨⟨rfl, rfl, rfl⟩, rfl⟩

/-- Over a whole stream: every accepted frame does what its position says. -/
theorem measure_run {m : Measurements} (h : m.lastMeasurement = -1) (frames : List Accepted) :
    (measureMachine.run m frames).2 =
      (Runs.numbered sameRun frames).map fun p => eventsAt p.1 p.2 := by
  have hrun := (Transducer.run_simulation (T := measureMachine) (U := Runs.counter sameRun)
    id (fun p => eventsAt p.1 p.2) measure_refines (s := m) (t := none) h frames).2
  rwa [List.map_id, Runs.counter_run] at hrun

/-! ## The daemon -/

/-- What was pushed among some events. -/
def pushed (events : List Event) : List Rat :=
  events.filterMap fun
    | .push weight => some weight
    | .progress _ _ _ => none

/-- The weights pushed while processing a frame. -/
def Processed.pushes (p : Processed) : List Rat := pushed p.events

/-- The events of the accepted frames of a record, frame by frame. -/
def acceptedEvents (trace : List Processed) : List (List Event) :=
  trace.filterMap fun p => (starfritRaw p.frame).map fun _ => p.events

/-- The daemon's globals are the measurements of the accepted frames. -/
theorem foldl_measures (clock : Nat → Int) (s : Starfrit) (frames : List CString) :
    (frames.foldl (starfritFrame clock) s).measurements =
        (measureMachine.run s.measurements (acceptedFrom clock s.timeCalls frames)).1 ∧
      acceptedEvents (frames.foldl (starfritFrame clock) s).trace =
        acceptedEvents s.trace ++
          (measureMachine.run s.measurements (acceptedFrom clock s.timeCalls frames)).2 := by
  induction frames generalizing s with
  | nil => exact ⟨rfl, (List.append_nil _).symm⟩
  | cons buff frames ih =>
      obtain ⟨hmeas, hevents⟩ := ih (starfritFrame clock s buff)
      rw [List.foldl_cons, hmeas, hevents]
      cases hraw : starfritRaw buff with
      | none =>
          rw [acceptedFrom_cons_none clock _ hraw, starfritFrame_of_not_accepted clock s hraw]
          refine ⟨rfl, ?_⟩
          simp [acceptedEvents, hraw]
      | some raw =>
          obtain ⟨f, hf, rfl⟩ := accepted_of_starfritRaw hraw
          rw [acceptedFrom_cons_some clock _ hraw, starfritFrame_of_accepted clock s hf,
            Transducer.run_cons]
          refine ⟨rfl, ?_⟩
          simp [acceptedEvents, hraw, measureMachine_step, Figure.weight]

/-- The weights pushed while processing the accepted frames, frame by frame. -/
def Starfrit.acceptedPushes (s : Starfrit) : List (List Rat) :=
  (acceptedEvents s.trace).map pushed

/-- What the frame at index `i` of its run pushes. -/
def pushAt (i : Nat) (a : Accepted) : List Rat :=
  if i = 10 ∧ a.raw ≠ 0 then [tenths a.raw] else []

theorem pushed_eventsAt (a : Accepted) (n : Nat) : pushed (eventsAt a n) = pushAt n a := by
  unfold eventsAt pushAt
  by_cases hzero : n = 0
  · subst hzero
    rfl
  · by_cases hlow : n < 10
    · simp [hzero, hlow, pushed, show n ≠ 10 by omega]
    · by_cases hpush : n = 10 ∧ a.raw ≠ 0
      · simp [hpush, pushed]
      · rw [if_neg hzero, if_neg hlow, if_neg hpush, if_neg hpush]
        rfl

/-- A run pushes at most once. -/
theorem pushAt_once (run : List Accepted) (k : Nat) :
    (run.mapIdx fun i a => pushAt (i + k) a).flatten.length ≤ if k ≤ 10 then 1 else 0 := by
  induction run generalizing k with
  | nil => simp
  | cons a run ih =>
      have hrest := ih (k + 1)
      rw [List.mapIdx_cons, List.flatten_cons, List.length_append, Nat.zero_add]
      simp only [Nat.add_assoc, Nat.add_comm 1]
      have hhead : (pushAt k a).length ≤ if k = 10 then 1 else 0 := by
        unfold pushAt
        by_cases hk : k = 10
        · simp only [hk, true_and, if_true]
          split <;> simp
        · simp [hk]
      split at hrest <;> split at hhead <;> split <;> omega

/-- With exact numbers the daemon, from its initial state and for every stream of
words in any blocks, takes the frames the receive loop takes and pushes exactly on
the eleventh frame of each maximal run whose raw value is not zero, with that
weight.  Frames that are not accepted neither push nor count. -/
theorem exact_pushes (clock : Nat → Int) (blocks : List (List LircT)) :
    ∃ st frames s,
      receiveBlocks unkn0 DecodeState.start blocks = .ok (st, frames) ∧
      starfritBlocks clock (DecodeState.start, Starfrit.start) blocks = .ok (st, s) ∧
      s.trace.map Processed.frame = frames ∧
      (∀ p ∈ s.trace, p.verdict = starfritVerdict p.frame ∧
        (starfritRaw p.frame = none → p.pushes = [])) ∧
      s.acceptedPushes =
        ((acceptedFrom clock 0 frames).splitBy sameRun).flatMap (List.mapIdx pushAt) ∧
      ∀ run ∈ (acceptedFrom clock 0 frames).splitBy sameRun,
        (run.mapIdx pushAt).flatten.length ≤ 1 := by
  have hframes := receiveBlocks_eq_run unkn0 DecodeState.start blocks
  rw [Transducer.runBlocks_eq_run] at hframes
  have hdaemon := starfritBlocks_eq_run clock DecodeState.start Starfrit.start blocks
  generalize (unkn0.wordMachine.run DecodeState.start blocks.flatten) = run at hframes hdaemon
  obtain ⟨st, frames⟩ := run
  obtain ⟨new, htrace, hnew, hquiet⟩ := trace_foldl clock Starfrit.start frames
  obtain ⟨_, hevents⟩ := foldl_measures clock Starfrit.start frames
  refine ⟨st, frames, _, hframes, hdaemon, ?_, ?_, ?_, ?_⟩
  · rw [htrace]
    exact hnew
  · intro p hp
    rw [htrace] at hp
    obtain ⟨hverdict, hevents⟩ := hquiet p hp
    exact ⟨hverdict, fun hnone => by rw [Processed.pushes, hevents hnone]; rfl⟩
  · rw [Starfrit.acceptedPushes, hevents, measure_run rfl, Runs.numbered]
    simp only [Starfrit.start, acceptedEvents, List.filterMap_nil, List.nil_append,
      List.map_map, List.map_flatMap]
    congr 1
    funext run
    rw [List.mapIdx_eq_zipIdx_map]
    exact List.map_congr_left fun p _ => pushed_eventsAt p.1 p.2
  · intro run _
    exact pushAt_once run 0

end IrBridge.Scale
