/-
  Daemon/Stop.lean --- `irbrgd stop`, which sends SIGHUP to the daemon.

  `signal_handler` writes a line to the log and records nothing, so the only trace
  of the signal is the `EINTR` of a `select` that was waiting when it came.  A
  signal that comes anywhere else in the loop is forgotten.

  A run goes on for ever, or up to a `select` that never returns: what the calls
  return is a function of the number of the iteration.  Its states are those of
  `Bridge.Turn` (`Schedule.head_run`).
-/
import IrBridge.Daemon.Bridge
import IrBridge.Scale.Measurements

set_option autoImplicit false

namespace IrBridge.Daemon

open IrBridge.Foundation
open IrBridge.Platform

/-! ## The signal -/

/-- Where in an iteration the signal is delivered. -/
inductive Moment where
  /-- blocked in `select` -/
  | waiting
  /-- in the call that shows as this event; `usleep` and the reads after it are
  the flush -/
  | during (event : Event)
  /-- in a command that `push_measurement` runs for this weight -/
  | pushing (weight : Rat)
  /-- in none of these calls -/
  | between
  deriving DecidableEq

/-- `signal_handler(SIGHUP)`: the globals stay as they are. -/
def hangup (b : Bridge) : Bridge := b

/-- What the calls of each iteration return, nothing where `select` never does, and
when the signal is delivered. -/
structure Schedule where
  calls : Nat → Option Round
  iteration : Nat
  moment : Moment

namespace Schedule

/-! ## Runs -/

/-- The daemon at the head of iteration `n`, or out of the loop; nothing if it does
not come that far. -/
def head (cfg : Config) (s : Schedule) : Nat → Option Bridge
  | 0 => some Bridge.start
  | n + 1 => do
    let b ← s.head cfg n
    let round ← s.calls n
    if b.phase = .serving then
      let next := (b.iterate cfg round).1
      some (if n = s.iteration then hangup next else next)
    else none

/-- What iteration `n` does. -/
def events (cfg : Config) (s : Schedule) (n : Nat) : List Event :=
  match s.head cfg n, s.calls n with
  | some b, some round => if b.phase = .serving then (b.iterate cfg round).2 else []
  | _, _ => []

/-- The weights that iteration `n` pushes. -/
def pushes (cfg : Config) (s : Schedule) (n : Nat) : List Rat :=
  match s.head cfg n, s.head cfg (n + 1) with
  | some b, some next =>
      (next.starfrit.trace.drop b.starfrit.trace.length).flatMap (·.pushes)
  | _, _ => []

/-- The daemon is in its loop at the head of iteration `n`. -/
def Serves (cfg : Config) (s : Schedule) (n : Nat) : Prop :=
  ∃ b, s.head cfg n = some b ∧ b.phase = .serving

/-- The signal comes at a moment that the run has. -/
def Delivered (cfg : Config) (s : Schedule) : Prop :=
  s.Serves cfg s.iteration ∧
    match s.moment with
    | .waiting => (s.calls s.iteration).isSome
    | .during event => event ∈ s.events cfg s.iteration
    | .pushing weight => weight ∈ s.pushes cfg s.iteration
    | .between => True

/-- `select` returns `EINTR` exactly when the signal comes while it waits. -/
def Interrupts (s : Schedule) : Prop :=
  ∀ n round, s.calls n = some round →
    (round.select = .failed eintr ↔ n = s.iteration ∧ s.moment = .waiting)

end Schedule

/-- A run of the loop in which one SIGHUP is delivered. -/
structure StopRun (cfg : Config) extends Schedule where
  delivered : toSchedule.Delivered cfg
  interrupts : toSchedule.Interrupts

/-! ## States -/

namespace Schedule

variable {cfg : Config} {s : Schedule}

/-- What it takes to get through an iteration. -/
theorem head_succ {n : Nat} {b' : Bridge} :
    s.head cfg (n + 1) = some b' ↔
      ∃ b round, s.head cfg n = some b ∧ s.calls n = some round ∧ b.phase = .serving ∧
        (b.iterate cfg round).1 = b' := by
  rw [head]
  constructor
  · intro h
    obtain ⟨b, hb, h⟩ := Option.bind_eq_some_iff.mp h
    obtain ⟨round, hround, h⟩ := Option.bind_eq_some_iff.mp h
    rw [Option.ite_none_right_eq_some] at h
    obtain ⟨hserving, h⟩ := h
    simp only [hangup, ite_self] at h
    exact ⟨b, round, hb, hround, hserving, Option.some.inj h⟩
  · rintro ⟨b, round, hb, hround, hserving, rfl⟩
    rw [hb, hround]
    show (if b.phase = .serving then _ else none) = _
    rw [if_pos hserving]
    simp only [hangup, ite_self]

/-- Nothing comes after a head that is out of the loop, or after none. -/
theorem head_succ_eq_none {n : Nat}
    (hout : ∀ b, s.head cfg n = some b → b.phase ≠ .serving) : s.head cfg (n + 1) = none := by
  by_contra hsome
  obtain ⟨_, hb'⟩ := Option.ne_none_iff_exists'.mp hsome
  obtain ⟨b, _, hb, _, hserving, _⟩ := head_succ.mp hb'
  exact hout b hb hserving

theorem events_eq {n : Nat} {b : Bridge} {round : Round} (hb : s.head cfg n = some b)
    (hround : s.calls n = some round) (hserving : b.phase = .serving) :
    s.events cfg n = (b.iterate cfg round).2 := by
  rw [events, hb, hround]
  exact if_pos hserving

/-- These runs are runs of the loop. -/
theorem head_run {n : Nat} {b : Bridge} (hb : s.head cfg n = some b) :
    Steps (Bridge.Turn cfg) Bridge.start ((List.range n).map (s.events cfg)) b := by
  induction n generalizing b with
  | zero =>
      obtain rfl := Option.some.inj hb
      exact .refl
  | succ n ih =>
      obtain ⟨before, round, hbefore, hround, hserving, hnext⟩ := head_succ.mp hb
      rw [List.range_succ, List.map_append, List.map_singleton]
      refine (ih hbefore).snoc ⟨hserving, round, ?_⟩
      rw [events_eq hbefore hround hserving]
      exact Prod.ext hnext rfl

/-- Out of the loop nothing is done any more. -/
theorem events_of_left {n : Nat} {b : Bridge} (hb : s.head cfg n = some b)
    (hout : b.phase ≠ .serving) {m : Nat} (hm : n ≤ m) : s.events cfg m = [] := by
  rcases Nat.eq_or_lt_of_le hm with rfl | hlt
  · rw [events, hb]
    cases s.calls n with
    | none => rfl
    | some round => exact if_neg hout
  · have hnone : s.head cfg m = none := by
      induction m, hlt using Nat.le_induction with
      | base =>
          apply head_succ_eq_none
          intro b' hb'
          rw [hb] at hb'
          exact Option.some.inj hb' ▸ hout
      | succ m hm ih =>
          apply head_succ_eq_none
          intro b' hb'
          rw [ih (by omega)] at hb'
          cases hb'
    rw [events, hnone]

end Schedule

/-! ## The way out -/

/-- What follows the loop: `close(fd)`, `clear_clients` and `end_connection`. -/
def wayOut (server : Server) : List Event :=
  .irClosed :: server.clearClients ++ [.serverClosed]

/-- An interrupted `select` ends the loop. -/
theorem iterate_interrupted (cfg : Config) {round : Round} (b : Bridge)
    (hselect : round.select = .failed eintr) :
    b.iterate cfg round = ({ b with phase := .left }, wayOut b.server) := by
  rw [Bridge.iterate, hselect]
  exact if_pos rfl

theorem irBranch_not_left (cfg : Config) (c : ReadResult) {b : Bridge}
    (hserving : b.phase = .serving) : (b.irBranch cfg c).1.phase ≠ .left := by
  rw [Bridge.irBranch]
  split
  · split
    · rw [hserving]
      exact Phase.noConfusion
    · exact Phase.noConfusion
  · rw [hserving]
    exact Phase.noConfusion

theorem acceptBranch_not_left (csock : Int) {b : Bridge} (hserving : b.phase = .serving) :
    (b.acceptBranch csock).1.phase ≠ .left := by
  rw [Bridge.acceptBranch]
  split
  · rw [hserving]
    exact Phase.noConfusion
  · split
    · rw [hserving]
      exact Phase.noConfusion
    · exact Phase.noConfusion

/-- Nothing else does. -/
theorem interrupted_of_left {cfg : Config} {round : Round} {b : Bridge}
    (hserving : b.phase = .serving) (hleft : (b.iterate cfg round).1.phase = .left) :
    round.select = .failed eintr := by
  rw [Bridge.iterate] at hleft
  generalize round.select = select at hleft ⊢
  cases select with
  | failed errno =>
      dsimp only at hleft
      by_cases herrno : errno = eintr
      · rw [herrno]
      · rw [if_neg herrno] at hleft
        cases hleft
  | ready set =>
      dsimp only at hleft
      exfalso
      split at hleft
      · exact irBranch_not_left cfg round.irRead hserving hleft
      · split at hleft
        · exact acceptBranch_not_left round.accept hserving hleft
        · rw [hserving] at hleft
          cases hleft

/-! ## Main result -/

/-- Events that the loop serves. -/
def Event.dispatched : Event → Bool
  | .irRead _ | .accepted _ | .acceptFailed | .clientRead _ _ => true
  | _ => false

/-- After the iteration in which the signal came nothing is served any more, and
the loop is left the way it should be. -/
def StopRun.Honoured {cfg : Config} (run : StopRun cfg) : Prop :=
  (∀ n, run.iteration < n → ∀ event ∈ run.events cfg n, event.dispatched = false) ∧
    ∃ n b b', run.iteration ≤ n ∧ run.head cfg n = some b ∧
      run.events cfg n = wayOut b.server ∧ run.head cfg (n + 1) = some b' ∧ b'.phase = .left

/-- A signal that does not interrupt `select` never ends the loop. -/
theorem StopRun.never_left {cfg : Config} (run : StopRun cfg) (hmoment : run.moment ≠ .waiting)
    {n : Nat} {b : Bridge} (hb : run.head cfg n = some b) : b.phase ≠ .left := by
  cases n with
  | zero =>
      obtain rfl := Option.some.inj hb
      exact Phase.noConfusion
  | succ n =>
      obtain ⟨before, round, _, hround, hserving, rfl⟩ := Schedule.head_succ.mp hb
      intro hleft
      have hselect := interrupted_of_left hserving hleft
      exact hmoment ((run.interrupts n round hround).mp hselect).2

/-- A stop request is honoured exactly when the daemon waits in `select` as it
comes. -/
theorem stop_honoured_iff {cfg : Config} (run : StopRun cfg) :
    run.Honoured ↔ run.moment = .waiting := by
  constructor
  · rintro ⟨_, n, b, b', _, _, _, hb', hleft⟩
    by_contra hmoment
    exact run.never_left hmoment hb' hleft
  · intro hmoment
    obtain ⟨⟨b, hb, hserving⟩, hreturns⟩ := run.delivered
    rw [hmoment] at hreturns
    obtain ⟨round, hround⟩ := Option.isSome_iff_exists.mp hreturns
    have hselect := (run.interrupts _ round hround).mpr ⟨rfl, hmoment⟩
    have hiterate := iterate_interrupted cfg b hselect
    have hnext : run.head cfg (run.iteration + 1) = some { b with phase := .left } :=
      Schedule.head_succ.mpr ⟨b, round, hb, hround, hserving, congrArg Prod.fst hiterate⟩
    refine ⟨fun n hn event hevent => ?_, run.iteration, b, _, Nat.le_refl _, hb, ?_, hnext, rfl⟩
    · rw [Schedule.events_of_left hnext Phase.noConfusion hn] at hevent
      cases hevent
    · rw [Schedule.events_eq hb hround hserving, hiterate]

/-- Client 5 says one byte. -/
def clientSays : Round where
  irRead := .failed
  accept := -1
  recv := fun _ => .got [2#8] (by decide)
  select := .ready (· = 5)

/-- A client connects and is heard, another one connects, and nothing follows.
The signal comes in the flush. -/
def stopInFlush : Schedule where
  calls
    | 0 => some (newConnection 5)
    | 1 => some clientSays
    | 2 => some (newConnection 6)
    | _ => none
  iteration := 1
  moment := .during .flushed

theorem stopInFlush_serves : stopInFlush.Serves plainBridge 1 := by
  refine ⟨_, rfl, ?_⟩
  decide +kernel

theorem stopInFlush_delivered : stopInFlush.Delivered plainBridge := by
  refine ⟨stopInFlush_serves, ?_⟩
  show Event.flushed ∈ stopInFlush.events plainBridge 1
  decide +kernel

theorem stopInFlush_interrupts : stopInFlush.Interrupts := by
  intro n round hround
  match n with
  | 0 | 1 | 2 =>
      obtain rfl := Option.some.inj hround
      exact ⟨fun h => Select.noConfusion h, fun h => Moment.noConfusion h.2⟩
  | n + 3 => cases hround

/-- The second client is accepted after the signal. -/
theorem stop_lost : ¬ StopRun.Honoured
    ⟨stopInFlush, stopInFlush_delivered, stopInFlush_interrupts⟩ := by
  rintro ⟨hquiet, _⟩
  have hevent : Event.accepted 6 ∈ stopInFlush.events plainBridge 2 := by
    decide +kernel
  exact absurd (hquiet 2 (by decide) _ hevent) (by decide)

end IrBridge.Daemon
