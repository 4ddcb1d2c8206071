/-
  Scale/Commands.lean --- what the daemon runs, from the words it hears.

  The parts of the scale's path are put together: the words of the device become
  frames, the frames that pass the tests become runs, the eleventh frame of a run
  becomes a push, and a push becomes a command for each target of the argument
  string that takes the weight.

  The commands are run where the source runs them, inside the receive loop and in
  `int`, so that a loop that ends has neither left the range of `int` nor the array
  that a command is printed into (`foldlM_starfritFramePush_ok_iff`).
-/
import IrBridge.Codec.Air
import IrBridge.Scale.Clock
import IrBridge.Scale.Push

set_option autoImplicit false

namespace IrBridge.Scale

open IrBridge.Config
open IrBridge.Foundation
open IrBridge.Codec
open IrBridge.Platform

/-! ## The pushes of a run -/

/-- A raw value that is worth a push. -/
def nonzero (a : Accepted) : Option Nat := if a.raw = 0 then none else some a.raw

/-- The raw value of the eleventh frame, unless it is zero. -/
def eleventh (run : List Accepted) : Option Nat := run[10]?.bind nonzero

theorem pushAt_eq (a : Accepted) : pushAt 10 a = (nonzero a).toList.map tenths := by
  unfold pushAt nonzero
  by_cases hraw : a.raw = 0
  · simp [hraw]
  · simp [hraw]

theorem pushAt_other {i : Nat} (hi : i ≠ 10) (a : Accepted) : pushAt i a = [] :=
  if_neg fun h => hi h.1

/-- A run pushes its eleventh frame. -/
theorem pushAt_run (run : List Accepted) (k : Nat) (hk : k ≤ 10) :
    (run.mapIdx fun i a => pushAt (i + k) a).flatten =
      (run[10 - k]?.bind nonzero).toList.map tenths := by
  induction run generalizing k with
  | nil => rfl
  | cons a run ih =>
      rw [List.mapIdx_cons, List.flatten_cons, Nat.zero_add]
      simp only [Nat.add_assoc, Nat.add_comm 1]
      rcases Nat.lt_or_eq_of_le hk with hlt | rfl
      · have hsub : 10 - k = 10 - (k + 1) + 1 := by omega
        rw [pushAt_other (Nat.ne_of_lt hlt), List.nil_append, ih (k + 1) hlt, hsub,
          List.getElem?_cons_succ]
      · -- Nothing is pushed behind the eleventh frame.
        have hlate : ∀ (run : List Accepted) (k : Nat), 10 < k →
            (run.mapIdx fun i a => pushAt (i + k) a).flatten = [] := by
          intro run
          induction run with
          | nil => exact fun _ _ => rfl
          | cons b run ih =>
              intro k hk
              rw [List.mapIdx_cons, List.flatten_cons, Nat.zero_add,
                pushAt_other (Nat.ne_of_gt hk), List.nil_append]
              simp only [Nat.add_assoc, Nat.add_comm 1]
              exact ih (k + 1) (Nat.lt_succ_of_lt hk)
        rw [hlate run 11 (by decide), List.append_nil, pushAt_eq]
        rfl

/-- The raw values that a list of runs pushes. -/
def pushedRaws (runs : List (List Accepted)) : List Nat := runs.filterMap eleventh

theorem flatten_pushAt (runs : List (List Accepted)) :
    (runs.flatMap (List.mapIdx pushAt)).flatten = (pushedRaws runs).map tenths := by
  induction runs with
  | nil => rfl
  | cons run runs ih =>
      have hrun : (run.mapIdx pushAt).flatten = (eleventh run).toList.map tenths :=
        pushAt_run run 0 (Nat.zero_le 10)
      rw [List.flatMap_cons, List.flatten_append, hrun, ih, pushedRaws, pushedRaws]
      cases heleventh : eleventh run with
      | none =>
          rw [List.filterMap_cons_none heleventh]
          rfl
      | some v =>
          rw [List.filterMap_cons_some heleventh]
          rfl

/-! ## The pushes of the daemon -/

/-- What the daemon has pushed. -/
def Starfrit.pushes (s : Starfrit) : List Rat := s.trace.flatMap Processed.pushes

/-- Only accepted frames push. -/
theorem flatMap_pushes {trace : List Processed}
    (hquiet : ∀ p ∈ trace, starfritRaw p.frame = none → p.events = []) :
    trace.flatMap Processed.pushes = (acceptedEvents trace).flatMap pushed := by
  induction trace with
  | nil => rfl
  | cons p trace ih =>
      have hrest := ih fun q hq => hquiet q (List.mem_cons_of_mem p hq)
      rw [List.flatMap_cons, hrest, acceptedEvents, acceptedEvents, Processed.pushes]
      cases hraw : starfritRaw p.frame with
      | none =>
          rw [hquiet p List.mem_cons_self hraw, List.filterMap_cons_none (by rw [hraw]; rfl)]
          rfl
      | some raw =>
          rw [List.filterMap_cons_some (by rw [hraw]; rfl), List.flatMap_cons]

/-- The daemon pushes the eleventh frames of the maximal runs of accepted
frames. -/
theorem pushes_foldl (clock : Nat → Int) (frames : List CString) :
    (frames.foldl (starfritFrame clock) Starfrit.start).pushes =
      (pushedRaws ((acceptedFrom clock 0 frames).splitBy sameRun)).map tenths := by
  obtain ⟨new, htrace, _, hquiet⟩ := trace_foldl clock Starfrit.start frames
  obtain ⟨_, hevents⟩ := foldl_measures clock Starfrit.start frames
  change _ = [] ++ new at htrace
  change _ = [] ++ (measureMachine.run Measurements.start (acceptedFrom clock 0 frames)).2
    at hevents
  rw [List.nil_append] at htrace hevents
  rw [Starfrit.pushes, htrace, flatMap_pushes fun p hp => (hquiet p hp).2, ← htrace, hevents,
    measure_run rfl, Runs.numbered, ← flatten_pushAt, List.flatMap_map, List.flatMap_assoc,
    List.flatten_eq_flatMap, List.flatMap_assoc]
  congr 1
  funext run
  rw [List.mapIdx_eq_zipIdx_map, List.flatMap_map]
  congr 1
  funext p
  exact pushed_eventsAt p.1 p.2

/-- An eleventh frame carries two bytes, not both zero. -/
theorem pushedRaws_bounds (clock : Nat → Int) (frames : List CString) :
    ∀ v ∈ pushedRaws ((acceptedFrom clock 0 frames).splitBy sameRun), 1 ≤ v ∧ v ≤ 65535 := by
  intro v hv
  obtain ⟨run, hrun, heleventh⟩ := List.mem_filterMap.mp hv
  obtain ⟨a, ha, hraw⟩ := Option.bind_eq_some_iff.mp heleventh
  rw [nonzero, Option.ite_none_left_eq_some] at hraw
  obtain ⟨hne, hv⟩ := hraw
  obtain rfl := Option.some.inj hv
  refine ⟨Nat.pos_of_ne_zero hne, ?_⟩
  have hmem : a ∈ acceptedFrom clock 0 frames := by
    rw [← List.flatten_splitBy sameRun (acceptedFrom clock 0 frames)]
    exact List.mem_flatten.mpr ⟨run, hrun, List.mem_of_getElem? ha⟩
  obtain ⟨i, hi, rfl⟩ := List.mem_mapIdx.mp hmem
  obtain ⟨buff, _, hraw⟩ := List.mem_filterMap.mp (List.getElem_mem hi)
  obtain ⟨f, hverdict, hf⟩ := accepted_of_starfritRaw hraw
  rw [← hf]
  exact raw_of_starfritVerdict hverdict

/-- Every push is paid for by eleven frames. -/
theorem length_pushedRaws (runs : List (List Accepted)) :
    11 * (pushedRaws runs).length ≤ runs.flatten.length := by
  induction runs with
  | nil => exact Nat.le_refl 0
  | cons run runs ih =>
      rw [List.flatten_cons, List.length_append, pushedRaws]
      cases heleventh : eleventh run with
      | none =>
          rw [List.filterMap_cons_none heleventh]
          exact Nat.le_trans ih (Nat.le_add_left _ _)
      | some v =>
          obtain ⟨a, ha, _⟩ := Option.bind_eq_some_iff.mp heleventh
          have hlong : 10 < run.length := (List.getElem?_eq_some_iff.mp ha).1
          rw [List.filterMap_cons_some heleventh, List.length_cons]
          rw [pushedRaws] at ih
          omega

theorem length_filterMap_frame (trace : List Processed) :
    ((trace.map Processed.frame).filterMap starfritRaw).length =
      (trace.filter fun p => (starfritRaw p.frame).isSome).length := by
  induction trace with
  | nil => rfl
  | cons p trace ih =>
      rw [List.map_cons]
      cases hraw : starfritRaw p.frame with
      | none =>
          rw [List.filterMap_cons_none hraw, List.filter_cons_of_neg (by rw [hraw]; simp), ih]
      | some raw =>
          rw [List.filterMap_cons_some hraw, List.filter_cons_of_pos (by rw [hraw]; rfl),
            List.length_cons, List.length_cons, ih]

/-- However the words are cut: the daemon pushes at most once in eleven accepted
frames. -/
theorem pushes_rate (clock : Nat → Int) (blocks : List (List LircT)) :
    ∃ st d, starfritBlocks clock (DecodeState.start, Starfrit.start) blocks = .ok (st, d) ∧
      11 * d.pushes.length ≤
        (d.trace.filter fun p => (starfritRaw p.frame).isSome).length := by
  have hdaemon := starfritBlocks_eq_run clock DecodeState.start Starfrit.start blocks
  generalize (unkn0.wordMachine.run DecodeState.start blocks.flatten) = run at hdaemon
  refine ⟨_, _, hdaemon, ?_⟩
  obtain ⟨new, htrace, hframes, _⟩ := trace_foldl clock Starfrit.start run.2
  change _ = [] ++ new at htrace
  have hpaid := length_pushedRaws ((acceptedFrom clock 0 run.2).splitBy sameRun)
  have haccepted : (acceptedFrom clock 0 run.2).length =
      (new.filter fun p => (starfritRaw p.frame).isSome).length := by
    rw [acceptedFrom, List.length_mapIdx, ← hframes, length_filterMap_frame]
  rw [List.flatten_splitBy, haccepted] at hpaid
  rw [pushes_foldl, List.length_map, htrace, List.nil_append]
  exact hpaid

/-! ## The receive loop with its commands -/

/-- What a fault of `push_measurement` is to the loop. -/
def PushFault.fault : PushFault → Fault
  | .tableOverread => .readOutside
  | .nullUrl => .readOutside
  | .pathOverflow => .writeOutside

/-- The pushes that were added to a trace. -/
def Starfrit.newPushes (before after : Starfrit) : List Rat :=
  (after.trace.drop before.trace.length).flatMap Processed.pushes

section Pushing

variable (push : Rat → Except Fault (List (List Char))) (clock : Nat → Int)

/-- Pushes, one after another, behind the commands run so far. -/
def runPushes (run : List (List Char)) (weights : List Rat) : Except Fault (List (List Char)) :=
  weights.foldlM
    (fun run weight => do
      let more ← push weight
      return run ++ more)
    run

/-- The body of the receive loop, with the commands that a frame runs. -/
def starfritFramePush (now : Starfrit × List (List Char)) (buff : CString) :
    Except Fault (Starfrit × List (List Char)) := do
  let s ← starfritFrameInt clock now.1 buff
  let run ← runPushes push now.2 (now.1.newPushes s)
  return (s, run)

/-- The daemon fed with blocks of whole words, one call of `starfrit_process`
each. -/
def starfritBlocksPush (now : DecodeState × Starfrit × List (List Char))
    (blocks : List (List LircT)) : Except Fault (DecodeState × Starfrit × List (List Char)) :=
  blocks.foldlM
    (fun now block =>
      starfritLoop (starfritFramePush push clock) (bytesOf block) (sizeofLircT * block.length) now)
    now

variable {push clock}

theorem runPushes_append {run : List (List Char)} {weights more : List Rat} :
    runPushes push run (weights ++ more) =
      (runPushes push run weights >>= (runPushes push · more)) :=
  List.foldlM_append

theorem Starfrit.newPushes_self (s : Starfrit) : s.newPushes s = [] := by
  rw [Starfrit.newPushes, List.drop_length, List.flatMap_nil]

/-- What two stretches of a trace push, the whole of it does. -/
theorem Starfrit.newPushes_trans {s t u : Starfrit} (hst : ∃ new, t.trace = s.trace ++ new)
    (htu : ∃ new, u.trace = t.trace ++ new) :
    s.newPushes u = s.newPushes t ++ t.newPushes u := by
  obtain ⟨first, hfirst⟩ := hst
  obtain ⟨second, hsecond⟩ := htu
  simp only [Starfrit.newPushes, hsecond, hfirst, List.drop_left, List.append_assoc,
    List.flatMap_append]
  rw [← List.append_assoc, List.drop_left]

theorem Starfrit.pushes_of_trace {s t : Starfrit} (h : ∃ new, t.trace = s.trace ++ new) :
    t.pushes = s.pushes ++ s.newPushes t := by
  obtain ⟨new, hnew⟩ := h
  rw [Starfrit.pushes, Starfrit.pushes, Starfrit.newPushes, hnew, List.drop_left,
    List.flatMap_append]

theorem grows_foldl (clock : Nat → Int) (s : Starfrit) (frames : List CString) :
    ∃ new, (frames.foldl (starfritFrame clock) s).trace = s.trace ++ new :=
  (trace_foldl clock s frames).imp fun _ h => h.1

/-- One frame. -/
theorem starfritFramePush_ok_iff {s s' : Starfrit} {run run' : List (List Char)}
    {buff : CString} :
    starfritFramePush push clock (s, run) buff = .ok (s', run') ↔
      FrameFits clock s buff ∧ s' = starfritFrame (intClock clock) s buff ∧
        runPushes push run (s.newPushes s') = .ok run' := by
  rw [starfritFramePush, ← and_assoc, ← starfritFrameInt_ok_iff]
  dsimp only
  constructor
  · intro h
    obtain ⟨t, hframe, hpushes⟩ := bind_eq_ok h
    obtain ⟨ran, hran, hdone⟩ := bind_eq_ok hpushes
    cases hdone
    exact ⟨hframe, hran⟩
  · rintro ⟨hframe, hran⟩
    rw [hframe, ok_bind, hran, ok_bind, pure_eq_ok]

/-- Frame after frame: the loop ends if and only if its numbers stay in the range of
`int` and every push it comes to is carried out; then it has done what the loop with
exact numbers does, and run these pushes in order. -/
theorem foldlM_starfritFramePush_ok_iff {s s' : Starfrit} {run run' : List (List Char)}
    {frames : List CString} :
    frames.foldlM (starfritFramePush push clock) (s, run) = .ok (s', run') ↔
      ScaleFits clock s frames ∧ s' = frames.foldl (starfritFrame (intClock clock)) s ∧
        runPushes push run (s.newPushes s') = .ok run' := by
  induction frames generalizing s run with
  | nil =>
      rw [List.foldlM_nil, List.foldl_nil, pure_eq_ok]
      constructor
      · intro h
        cases h
        rw [Starfrit.newPushes_self]
        exact ⟨trivial, rfl, rfl⟩
      · rintro ⟨_, rfl, hpushes⟩
        rw [Starfrit.newPushes_self] at hpushes
        cases hpushes
        rfl
  | cons buff frames ih =>
      rw [List.foldlM_cons, List.foldl_cons, ScaleFits, Guarded]
      have hfirst := grows_foldl (intClock clock) s [buff]
      rw [List.foldl_cons, List.foldl_nil] at hfirst
      have hrest := grows_foldl (intClock clock) (starfritFrame (intClock clock) s buff) frames
      constructor
      · intro h
        obtain ⟨⟨t, ran⟩, hframe, hframes⟩ := bind_eq_ok h
        obtain ⟨hfits, rfl, hran⟩ := starfritFramePush_ok_iff.mp hframe
        obtain ⟨hall, rfl, hpushes⟩ := ih.mp hframes
        refine ⟨⟨hfits, hall⟩, rfl, ?_⟩
        rw [Starfrit.newPushes_trans hfirst hrest, runPushes_append, hran, ok_bind, hpushes]
      · rintro ⟨⟨hfits, hall⟩, rfl, hpushes⟩
        rw [Starfrit.newPushes_trans hfirst hrest, runPushes_append] at hpushes
        obtain ⟨ran, hran, hpushes⟩ := bind_eq_ok hpushes
        rw [starfritFramePush_ok_iff.mpr ⟨hfits, rfl, hran⟩, ok_bind]
        exact ih.mpr ⟨hall, rfl, hpushes⟩

/-- On whole words the blocks are the frames of the word machine. -/
theorem starfritBlocksPush_eq_run (st : DecodeState) (now : Starfrit × List (List Char))
    (blocks : List (List LircT)) :
    starfritBlocksPush push clock (st, now) blocks =
      ((unkn0.wordMachine.run st blocks.flatten).2.foldlM (starfritFramePush push clock) now).map
        ((unkn0.wordMachine.run st blocks.flatten).1, ·) := by
  rw [← List.flatMap_id]
  exact foldlM_blocksIn unkn0 _ id blocks
    (fun now block _ => starfritLoop_eq_run (starfritFramePush push clock) now block) st now

end Pushing

/-! ## The commands -/

section Commands

variable {F : Type} [Zero F] [LE F] [LT F] [DecidableLE F] [DecidableLT F]

/-- `push_measurement(weight)` in the receive loop. -/
def pushMeasurementIn (number : Rat → F) (args : List Char) (t : Targets F) (weight : Rat) :
    Except Fault (List (List Char)) :=
  (pushMeasurement number args t (roundTo 24 weight)).mapError PushFault.fault

/-- What is run for a target, written as its two limits and its url: the command, if
the weight is at least the first limit and below the second.  A limit that is not
above 0 is none. -/
def commandFor (atof : List Char → F) (number : Rat → F) (v : Nat)
    (x : List Char × List Char × List Char) : List (List Char) :=
  if (atof x.1 ≤ 0 ∨ atof x.1 ≤ number (floatWeight v)) ∧
      (atof x.2.1 ≤ 0 ∨ number (floatWeight v) < atof x.2.1) then
    ["curl -d \x22\x22 -X POST \x22".toList ++ x.2.2 ++ printFixed 6 (floatWeight v) ++ ['\x22']]
  else []

/-- The test of the loop, on the limits as they are stored, says so.  Only numbers
below 0 are replaced. -/
theorem admits_limit_iff (hneg : ∀ a : F, a < 0 ∨ a = 0 → a ≤ 0) (a b weight : F) :
    admits (limit a) (limit b) weight = true ↔
      (a ≤ 0 ∨ a ≤ weight) ∧ (b ≤ 0 ∨ weight < b) := by
  have hzero : (0 : F) ≤ 0 := hneg 0 (.inr rfl)
  have hstored : ∀ (x : F) (Q : F → Prop), (limit x ≤ 0 ∨ Q (limit x)) ↔ (x ≤ 0 ∨ Q x) := by
    intro x Q
    rw [limit]
    by_cases hx : x < 0
    · rw [if_pos hx]
      exact iff_of_true (.inl hzero) (.inl (hneg x (.inl hx)))
    · rw [if_neg hx]
  rw [admits, Bool.and_eq_true, Bool.or_eq_true, Bool.or_eq_true, decide_eq_true_eq,
    decide_eq_true_eq, decide_eq_true_eq, decide_eq_true_eq, hstored a (· ≤ weight)]
  exact and_congr_right fun _ => hstored b (weight < ·)

theorem commandFor_of_admits (hneg : ∀ a : F, a < 0 ∨ a = 0 → a ≤ 0) (atof : List Char → F)
    (number : Rat → F) (v : Nat) (x : List Char × List Char × List Char) :
    commandFor atof number v x =
      if admits (limit (atof x.1)) (limit (atof x.2.1)) (number (floatWeight v)) = true then
        [command x.2.2 (floatWeight v)]
      else [] := by
  have hline : "curl -d \x22\x22 -X POST \x22".toList = curlPrefix := rfl
  rw [commandFor, hline, command, List.append_assoc, List.append_assoc]
  exact if_congr (admits_limit_iff hneg _ _ _).symm rfl rfl

/-- One target of the table. -/
theorem pushTurn_entry (hneg : ∀ a : F, a < 0 ∨ a = 0 → a ≤ 0) (atof : List Char → F)
    (number : Rat → F) {args : List Char} {v : Nat}
    (hpos : 1 ≤ v) (hv : v ≤ 65535) (run : List (List Char)) {group : Token × Token × Token}
    (hread : (readAt args group.2.2.pos).chars = group.2.2.text)
    (hfits : admits (limit (atof group.1.text)) (limit (atof group.2.1.text))
      (number (floatWeight v)) = true →
      group.2.2.text.length + (Nat.toDigits 10 (v / 10)).length ≤ 226) :
    pushTurn number args (floatWeight v) run (entry atof group) =
      .ok (run ++ commandFor atof number v (Grouping.groupMap Token.text group)) := by
  have hsize : pathSize = 255 := rfl
  have hlen := length_command hpos hv group.2.2.text
  have hcommand := commandFor_of_admits hneg atof number v (Grouping.groupMap Token.text group)
  by_cases hadmits : admits (entry atof group).min (entry atof group).max
      (number (floatWeight v)) = true
  · have hroom := hfits hadmits
    have hpath : (command group.2.2.text (floatWeight v)).length < pathSize := by omega
    rw [hcommand.trans (if_pos hadmits), pushTurn, if_pos hadmits]
    dsimp only [entry]
    rw [hread, if_pos hpath]
    rfl
  · rw [hcommand.trans (if_neg hadmits), pushTurn, if_neg hadmits, List.append_nil]

/-- One push runs a command for each target of the argument string that takes the
weight, in the order of the string. -/
theorem Progress.push_eq (hneg : ∀ a : F, a < 0 ∨ a = 0 → a ≤ 0) {atof : List Char → F}
    (number : Rat → F) {text : List Char} {done : List Token} {s : Setup F}
    (h : Progress atof (tokensOf text) done [] s) {v : Nat}
    (hpos : 1 ≤ v) (hv : v ≤ 65535) (hfit : UrlsFit atof number text v) :
    pushMeasurement number s.scan.args s.targets (floatWeight v) =
      .ok ((listedTargets text).flatMap (commandFor atof number v)) := by
  rw [UrlsFit, h.listed, List.forall_mem_map] at hfit
  rw [pushMeasurement, readLoop_eq _ _ h.counted_le, ← Targets.counted, h.filled.counted_eq,
    h.listed, List.flatMap_map, List.foldlM_map]
  refine foldlM_collect _ (fun run group hgroup => ?_) []
  have hread := h.read_url (List.mem_filter.mp hgroup).1
  exact pushTurn_entry hneg atof number hpos hv run hread (hfit group hgroup)

/-- The commands of pushes that all fit. -/
theorem Progress.runPushes_eq (hneg : ∀ a : F, a < 0 ∨ a = 0 → a ≤ 0) {atof : List Char → F}
    (number : Rat → F) {text : List Char} {done : List Token} {s : Setup F}
    (h : Progress atof (tokensOf text) done [] s)
    {raws : List Nat} (hraws : ∀ v ∈ raws, 1 ≤ v ∧ v ≤ 65535)
    (hfit : ∀ v ∈ raws, UrlsFit atof number text v) :
    runPushes (pushMeasurementIn number s.scan.args s.targets) [] (raws.map tenths) =
      .ok (raws.flatMap fun v => (listedTargets text).flatMap (commandFor atof number v)) := by
  rw [runPushes, List.foldlM_map]
  refine foldlM_collect _ (fun run v hv => ?_) []
  obtain ⟨hpos, hle⟩ := hraws v hv
  have hpush := h.push_eq hneg number hpos hle (hfit v hv)
  rw [floatWeight] at hpush
  rw [pushMeasurementIn, hpush]
  rfl

/-- Urls of at most 222 characters fit with every weight. -/
theorem urlsFit_of_short {atof : List Char → F} (number : Rat → F) {text : List Char}
    (hshort : ∀ x ∈ listedTargets text, x.2.2.length ≤ 222) {v : Nat} (hv : v ≤ 65535) :
    UrlsFit atof number text v := by
  intro x hx _
  have hurl := hshort x hx
  have hdigits : (Nat.toDigits 10 (v / 10)).length ≤ 4 :=
    (Nat.length_toDigits_le_iff (by decide) (by decide)).mpr (by omega)
  omega

/-- The commands for accepted frames: of each maximal run of equal measurements the
eleventh, unless it is zero, has one for each listed target that takes its
weight. -/
def commandsOf (atof : List Char → F) (number : Rat → F) (args : List Char)
    (accepted : List Accepted) : List (List Char) :=
  (pushedRaws (accepted.splitBy sameRun)).flatMap
    fun v => (listedTargets args).flatMap (commandFor atof number v)

/-- What a daemon runs for its frames, from program start. -/
theorem Progress.run_of_frames (hneg : ∀ a : F, a < 0 ∨ a = 0 → a ≤ 0) {atof : List Char → F}
    (number : Rat → F) {text : List Char} {done : List Token} {s : Setup F}
    (h : Progress atof (tokensOf text) done [] s)
    (hshort : ∀ x ∈ listedTargets text, x.2.2.length ≤ 222) (clock : Nat → Int)
    (frames : List CString) :
    runPushes (pushMeasurementIn number s.scan.args s.targets) []
        (frames.foldl (starfritFrame clock) Starfrit.start).pushes =
      .ok (commandsOf atof number text (acceptedFrom clock 0 frames)) := by
  have hbounds := pushedRaws_bounds clock frames
  rw [pushes_foldl]
  exact h.runPushes_eq hneg number hbounds fun v hv =>
    urlsFit_of_short number hshort (hbounds v hv).2

/-- From the argument string and the words of the device to the commands.  With at
most 1023 characters and urls of at most 222, for every stream in any blocks whose
readings of the clock and whose runs stay within `int`: the commands that the
daemon runs are those for the accepted frames, and nothing else is run. -/
theorem commands_of_words (dm : DataModel) (atof : List Char → F) (number : Rat → F)
    (hneg : ∀ a : F, a < 0 ∨ a = 0 → a ≤ 0) {t : Targets F} (hstart : t.starfritcount = 0)
    (led : Int) {args : CString} (hlen : args.strlen ≤ 1023)
    (hshort : ∀ x ∈ listedTargets args.chars, x.2.2.length ≤ 222) (clock : Nat → Int)
    {blocks : List (List LircT)} {st : DecodeState} {frames : List CString}
    (hframes : receiveBlocks unkn0 DecodeState.start blocks = .ok (st, frames))
    (hdates : (acceptedFrom (intClock clock) 0 frames).IsChain DatesFit)
    (hruns : ∀ run ∈ (acceptedFrom (intClock clock) 0 frames).splitBy sameRun,
      run.length ≤ 2 ^ 31) :
    ∃ s d, starfritSetup dm atof t led (some args) = .ok s ∧
      starfritBlocksPush (pushMeasurementIn number s.scan.args s.targets) clock
          (DecodeState.start, Starfrit.start, []) blocks =
        .ok (st, d, commandsOf atof number args.chars
          (acceptedFrom (intClock clock) 0 frames)) := by
  obtain ⟨done, s, hsetup, hprogress⟩ := starfrit_setup_progress atof dm hstart led hlen
  rw [receiveBlocks_eq_run, Transducer.runBlocks_eq_run] at hframes
  have hrun := Except.ok.inj hframes
  have hfits : ScaleFits clock Starfrit.start frames :=
    (scaleFits_start_iff clock frames).mpr ⟨hdates, hruns⟩
  have hpushes := hprogress.run_of_frames hneg number hshort (intClock clock) frames
  have hloop := foldlM_starfritFramePush_ok_iff.mpr ⟨hfits, rfl, hpushes⟩
  refine ⟨s, frames.foldl (starfritFrame (intClock clock)) Starfrit.start, hsetup, ?_⟩
  rw [starfritBlocksPush_eq_run, hrun]
  dsimp only
  rw [hloop]
  rfl

end Commands

/-- `0;0;http://x` -/
def oneTarget : CString :=
  CString.ofBuffer ['0', ';', '0', ';', 'h', 't', 't', 'p', ':', '/', '/', 'x']

/-- Eleven times, for one target, while the clock stands still. -/
theorem commands_of_words_eleven :
    ∃ s st d,
      starfritSetup .ilp32 (fun _ => (0 : Rat)) Targets.start 4 (some oneTarget) = .ok s ∧
      starfritBlocksPush (pushMeasurementIn id s.scan.args s.targets) (fun _ => 0)
          (DecodeState.start, Starfrit.start, []) (List.replicate 11 scaleFrame) =
        .ok (st, d, commandsOf (fun _ => (0 : Rat)) id oneTarget.chars
          (acceptedFrom (intClock fun _ => 0) 0 (List.replicate 11 scaleBits))) := by
  obtain ⟨st, hframes⟩ := receiveBlocks_scaleFrame 11
  have hdates : (acceptedFrom (intClock fun _ => 0) 0
      (List.replicate 11 scaleBits)).IsChain DatesFit := by
    refine List.Pairwise.isChain (List.pairwise_of_forall_mem_list fun a ha b hb => ?_)
    obtain ⟨i, hi, rfl⟩ := List.mem_mapIdx.mp ha
    obtain ⟨j, hj, rfl⟩ := List.mem_mapIdx.mp hb
    show FitsInt (toInt 0 - toInt 0)
    rw [Int.sub_self]
    decide
  have hruns : ∀ run ∈ (acceptedFrom (intClock fun _ => 0) 0
      (List.replicate 11 scaleBits)).splitBy sameRun, run.length ≤ 2 ^ 31 := by
    intro run hrun
    have hlen := length_run_le _ _ _ run hrun
    rw [List.length_replicate] at hlen
    omega
  obtain ⟨s, d, hsetup, hloop⟩ := commands_of_words .ilp32 (fun _ => (0 : Rat)) id
    (fun a ha => ha.elim le_of_lt le_of_eq) (rfl : Targets.start.starfritcount = 0) 4
    (by decide : oneTarget.strlen ≤ 1023)
    (by decide +kernel) (fun _ => 0) hframes hdates hruns
  exact ⟨s, st, d, hsetup, hloop⟩

end IrBridge.Scale
