/-
  Daemon/Descriptors.lean --- how a run ends, and what it leaves open.

  The loop is left in two ways: `select` is interrupted, or fails otherwise.  Only
  the first one is a way out: there the device, the listening socket and every
  client are closed, each once.  The other one, and everything that the process
  can die of, leave them to the system.
-/
import Mathlib.Data.List.Perm.Subperm
import IrBridge.Client.Safety
import IrBridge.Daemon.Service
import IrBridge.Daemon.Stop

set_option autoImplicit false

namespace IrBridge.Daemon

open IrBridge.Foundation
open IrBridge.Platform
open IrBridge.Scale

/-! ## Closing -/

/-- The socket closed on the way out. -/
def Event.clearedSocket : Event → Option Int
  | .cleared csock => some csock
  | _ => none

/-- Closing the device. -/
def Event.closesDevice : Event → Option Unit
  | .irClosed => some ()
  | _ => none

/-- Closing the listening socket. -/
def Event.closesServer : Event → Option Unit
  | .serverClosed => some ()
  | _ => none

/-- The events that take part in the account. -/
def Event.quiet (event : Event) : Prop :=
  event.opened = none ∧ event.removed = none ∧ event.clearedSocket = none ∧
    event.closesDevice = none ∧ event.closesServer = none

/-- Every descriptor is accounted for. -/
structure Accounted (events : List Event) (b : Bridge) : Prop where
  /-- a socket accepted was removed, or is in the table -/
  sockets : (events.filterMap Event.opened).Perm
    (events.filterMap Event.removed ++ b.server.table)
  /-- on the way out those in the table are closed, and at no other time -/
  cleared : events.filterMap Event.clearedSocket =
    if b.phase = .left then b.server.table else []
  /-- and so is the device, once -/
  device : events.filterMap Event.closesDevice = if b.phase = .left then [()] else []
  /-- and the listening socket, once -/
  listener : events.filterMap Event.closesServer = if b.phase = .left then [()] else []

theorem Accounted.start : Accounted [] Bridge.start where
  sockets := List.Perm.refl _
  cleared := rfl
  device := rfl
  listener := rfl

theorem filterMap_quiet {events : List Event} (h : ∀ event ∈ events, event.quiet) :
    events.filterMap Event.opened = [] ∧ events.filterMap Event.removed = [] ∧
      events.filterMap Event.clearedSocket = [] ∧
      events.filterMap Event.closesDevice = [] ∧
      events.filterMap Event.closesServer = [] :=
  ⟨List.filterMap_eq_nil_iff.mpr fun event he => (h event he).1,
    List.filterMap_eq_nil_iff.mpr fun event he => (h event he).2.1,
    List.filterMap_eq_nil_iff.mpr fun event he => (h event he).2.2.1,
    List.filterMap_eq_nil_iff.mpr fun event he => (h event he).2.2.2.1,
    List.filterMap_eq_nil_iff.mpr fun event he => (h event he).2.2.2.2⟩

/-- What one iteration contributes. -/
structure Accounts (b : Bridge) (events : List Event) (b' : Bridge) : Prop where
  sockets : (b.server.table ++ events.filterMap Event.opened).Perm
    (events.filterMap Event.removed ++ b'.server.table)
  cleared : events.filterMap Event.clearedSocket =
    if b'.phase = .left then b'.server.table else []
  device : events.filterMap Event.closesDevice = if b'.phase = .left then [()] else []
  listener : events.filterMap Event.closesServer = if b'.phase = .left then [()] else []

/-- An iteration that closes nothing but what it removes. -/
theorem Accounts.of_not_left {b b' : Bridge} {events : List Event} (hleft : b'.phase ≠ .left)
    (hsockets : (b.server.table ++ events.filterMap Event.opened).Perm
      (events.filterMap Event.removed ++ b'.server.table))
    (hcleared : events.filterMap Event.clearedSocket = [])
    (hdevice : events.filterMap Event.closesDevice = [])
    (hlistener : events.filterMap Event.closesServer = []) : Accounts b events b' where
  sockets := hsockets
  cleared := by rw [if_neg hleft, hcleared]
  device := by rw [if_neg hleft, hdevice]
  listener := by rw [if_neg hleft, hlistener]

theorem Accounts.of_quiet {b b' : Bridge} {events : List Event} (hleft : b'.phase ≠ .left)
    (htable : b'.server.table = b.server.table) (hquiet : ∀ event ∈ events, event.quiet) :
    Accounts b events b' := by
  obtain ⟨hopened, hremoved, hcleared, hdevice, hlistener⟩ := filterMap_quiet hquiet
  refine .of_not_left hleft ?_ hcleared hdevice hlistener
  rw [hopened, hremoved, htable, List.append_nil, List.nil_append]

/-- What a projection sees of the way out. -/
theorem filterMap_wayOut {α : Type} (f : Event → Option α) (server : Server) :
    (wayOut server).filterMap f =
      (f .irClosed).toList ++ server.table.filterMap (fun csock => f (.cleared csock)) ++
        (f .serverClosed).toList := by
  have hone : ∀ event rest, List.filterMap f (event :: rest) =
      (f event).toList ++ rest.filterMap f := by
    intro event rest
    rw [List.filterMap_cons]
    cases f event with
    | none => rfl
    | some a => rfl
  rw [wayOut, Server.clearClients_eq, List.filterMap_append, hone, hone, List.filterMap_map,
    List.filterMap_nil, List.append_nil]
  rfl

/-- The way out closes everything once. -/
theorem Accounts.of_wayOut (b : Bridge) :
    Accounts b (wayOut b.server) { b with phase := .left } := by
  have hnone : ∀ {α : Type}, b.server.table.filterMap (fun _ => (none : Option α)) = [] :=
    List.filterMap_eq_nil_iff.mpr fun _ _ => rfl
  refine ⟨?_, ?_, ?_, ?_⟩
  · rw [filterMap_wayOut, filterMap_wayOut]
    simp only [Event.opened, Event.removed, hnone, Option.toList_none, List.append_nil]
    exact List.Perm.refl _
  · rw [filterMap_wayOut, if_pos rfl]
    simp only [Event.clearedSocket, List.filterMap_some, Option.toList_none, List.append_nil,
      List.nil_append]
  · rw [filterMap_wayOut, if_pos rfl]
    simp only [Event.closesDevice, hnone, Option.toList_none, Option.toList_some,
      List.append_nil]
  · rw [filterMap_wayOut, if_pos rfl]
    simp only [Event.closesServer, hnone, Option.toList_none, Option.toList_some,
      List.append_nil, List.nil_append]

/-- What a projection that sees neither reads nor writes sees of a pass. -/
theorem filterMap_passEvents {α : Type} {f : Event → Option α}
    (hread : ∀ csock block, f (.clientRead csock block) = none)
    (hwrite : ∀ block, f (.irWrite block) = none) (hflush : f .flushed = none)
    (recv : Int → ReadResult) (gone : List Int) (served : Option Int) :
    (passEvents recv gone served).filterMap f =
      gone.filterMap fun csock => f (.closed csock) := by
  have hserved : (served.elim [] fun csock =>
      servedEvents csock (recv csock).bytes).filterMap f = [] := by
    cases served with
    | none => rfl
    | some csock =>
        show (servedEvents csock (recv csock).bytes).filterMap f = []
        rw [servedEvents, List.filterMap_cons_none (hread _ _),
          List.filterMap_cons_none (hwrite _), List.filterMap_cons_none hflush]
        rfl
  rw [passEvents, List.filterMap_append, hserved, List.append_nil]
  induction gone with
  | nil => rfl
  | cons csock gone ih =>
      change List.filterMap f (.clientRead csock [] :: .closed csock :: goneEvents gone) = _
      rw [List.filterMap_cons_none (hread _ _), List.filterMap_cons, List.filterMap_cons, ih]

/-- Every iteration is accounted for. -/
theorem Bridge.Observed.accounts {cfg : Config} {b b' : Bridge} {round : Round}
    {events : List Event} (h : Bridge.Observed cfg b (round, events) b')
    (hnodup : b.server.table.Nodup) : Accounts b events b' := by
  have hserving := h.1
  have hround := h.2.1
  dsimp only at hround
  cases hselect : round.select with
  | failed errno =>
      by_cases herrno : errno = eintr
      · rw [iterate_interrupted cfg b (herrno ▸ hselect)] at hround
        obtain ⟨rfl, rfl⟩ := Prod.mk.inj hround
        exact .of_wayOut b
      · rw [Bridge.iterate, hselect] at hround
        dsimp only at hround
        rw [if_neg herrno] at hround
        obtain ⟨rfl, rfl⟩ := Prod.mk.inj hround
        exact .of_quiet Phase.noConfusion rfl (fun _ hevent => absurd hevent List.not_mem_nil)
  | ready set =>
      have hleft : b'.phase ≠ .left := by
        intro hleft
        have hinterrupted := interrupted_of_left hserving
          ((congrArg (fun now => now.1.phase) hround).trans hleft)
        rw [hselect] at hinterrupted
        cases hinterrupted
      rcases h.branches hselect hnodup with ⟨htable, rfl⟩ | ⟨more, hmore, hevents⟩ |
        ⟨gone, served, hpass, htable, rfl⟩
      · refine .of_quiet hleft htable fun event hevent => ?_
        rcases List.mem_cons.mp hevent with rfl | hevent
        · exact ⟨rfl, rfl, rfl, rfl, rfl⟩
        · split at hevent
          · obtain ⟨csock, _, rfl⟩ := List.mem_map.mp hevent
            exact ⟨rfl, rfl, rfl, rfl, rfl⟩
          · exact absurd hevent List.not_mem_nil
      · rcases hevents with ⟨rfl, rfl⟩ | ⟨rfl, rfl⟩
        · refine .of_quiet hleft (hmore.trans (List.append_nil _)) fun event hevent => ?_
          rw [List.mem_singleton.mp hevent]
          exact ⟨rfl, rfl, rfl, rfl, rfl⟩
        · refine .of_not_left hleft ?_ rfl rfl rfl
          rw [hmore]
          exact List.Perm.refl _
      · have hsub : (gone ++ b.server.table.diff gone).Perm b.server.table :=
          List.subperm_append_diff_self_of_count_le
            fun csock _ => hpass.sublist.count_le csock
        refine .of_not_left hleft ?_ ?_ ?_ ?_
        · rw [filterMap_passEvents (fun _ _ => rfl) (fun _ => rfl) rfl,
            filterMap_passEvents (fun _ _ => rfl) (fun _ => rfl) rfl, htable]
          simpa [Event.opened, Event.removed] using hsub.symm
        all_goals
          rw [filterMap_passEvents (fun _ _ => rfl) (fun _ => rfl) rfl]
          exact List.filterMap_eq_nil_iff.mpr fun _ _ => rfl

theorem Accounted.snoc {events new : List Event} {b b' : Bridge} (h : Accounted events b)
    (hserving : b.phase = .serving) (hnew : Accounts b new b') :
    Accounted (events ++ new) b' := by
  have hnot : ¬ b.phase = .left := by
    rw [hserving]
    exact Phase.noConfusion
  refine ⟨?_, ?_, ?_, ?_⟩
  · rw [List.filterMap_append, List.filterMap_append]
    calc (events.filterMap Event.opened ++ new.filterMap Event.opened).Perm
          ((events.filterMap Event.removed ++ b.server.table) ++ new.filterMap Event.opened) :=
            h.sockets.append_right _
      _ = events.filterMap Event.removed ++ (b.server.table ++ new.filterMap Event.opened) :=
            List.append_assoc ..
      List.Perm _ (events.filterMap Event.removed ++
          (new.filterMap Event.removed ++ b'.server.table)) := hnew.sockets.append_left _
      _ = (events.filterMap Event.removed ++ new.filterMap Event.removed) ++
          b'.server.table := (List.append_assoc ..).symm
  · rw [List.filterMap_append, h.cleared, if_neg hnot, hnew.cleared, List.nil_append]
  · rw [List.filterMap_append, h.device, if_neg hnot, hnew.device, List.nil_append]
  · rw [List.filterMap_append, h.listener, if_neg hnot, hnew.listener, List.nil_append]

/-- In every run each socket that was accepted is removed once or still in the
table.  The daemon that leaves its loop closes those in the table, the device and
the listening socket, each once; a daemon in any other state has closed none of
them. -/
theorem descriptors_accounted {cfg : Config} {trace : List (List Event)} {b : Bridge}
    (hrun : Steps (Bridge.Step cfg) Bridge.start trace b) : Accounted trace.flatten b := by
  have hboth : b.server.table.Nodup ∧ Accounted trace.flatten b := by
    refine hrun.invariant (fun trace b => b.server.table.Nodup ∧ Accounted trace.flatten b)
      ⟨List.nodup_nil, .start⟩ ?_
    intro trace b events b' hinv hstep
    obtain ⟨_, hrelays⟩ := hstep.relays
    obtain ⟨⟨hserving, round, hround⟩, hadmits⟩ := hstep
    have hobserved : Bridge.Observed cfg b (round, events) b' := ⟨hserving, hround, hadmits⟩
    refine ⟨hrelays.relays.nodup hinv.1, ?_⟩
    rw [List.flatten_append, List.flatten_singleton]
    exact hinv.2.snoc hserving (hobserved.accounts hinv.1)
  exact hboth.2

/-- `select` is interrupted. -/
def interrupted : Round where
  irRead := .failed
  accept := -1
  recv := fun _ => .failed
  select := .failed eintr

/-- Two clients connect, the first one leaves, and the daemon is stopped. -/
theorem descriptors_accounted_stop :
    ∃ b, b.phase = .left ∧ Accounted
      [.accepted 5, .accepted 6, .clientRead 5 [], .closed 5,
        .irClosed, .cleared 6, .serverClosed] b := by
  have hplay : (Bridge.play plainBridge [newConnection 5, newConnection 6, firstLeaves,
      interrupted]).map (fun now => (now.1.flatten, now.2.phase)) =
      some ([.accepted 5, .accepted 6, .clientRead 5 [], .closed 5,
        .irClosed, .cleared 6, .serverClosed], .left) := by
    decide +kernel
  obtain ⟨⟨trace, b⟩, hrun, hnow⟩ := Option.map_eq_some_iff.mp hplay
  obtain ⟨htrace, hleft⟩ := Prod.mk.inj hnow
  exact ⟨b, hleft, htrace ▸ descriptors_accounted (Bridge.steps_of_play hrun)⟩

end IrBridge.Daemon
