/-
  Daemon/Relay.lean --- what the bridge is for.

  A relay between one infrared device and a list of connected sockets.  What is
  read from the device goes to every socket, what is read from a socket goes to
  the device, and a socket is dropped when a read on it returns nothing.  One
  step of the relay is one iteration of the daemon's loop; what it can do is said
  once, in `Relay.Step`, and the invariants of whole runs follow from that.
-/
import IrBridge.Foundation.Transition
import IrBridge.Platform.Types

set_option autoImplicit false

namespace IrBridge.Daemon

open IrBridge.Foundation
open IrBridge.Platform

/-! ## Events -/

/-- What the daemon does to its descriptors. -/
inductive Event where
  /-- `accept` returned a socket -/
  | accepted (csock : Int)
  /-- `accept` failed -/
  | acceptFailed
  /-- `read_client` returned these bytes; none for end of stream or an error -/
  | clientRead (csock : Int) (block : List Byte)
  /-- `remove_client` -/
  | closed (csock : Int)
  /-- `read` on the device; no bytes for 0 or an error -/
  | irRead (block : List Byte)
  /-- `send` in `write_toallclients` -/
  | sent (csock : Int) (block : List Byte)
  /-- `write` on the device -/
  | irWrite (block : List Byte)
  /-- the flush that avoids a loopback -/
  | flushed
  /-- `close(fd)` on the way out -/
  | irClosed
  /-- `closesocket` in `clear_clients` -/
  | cleared (csock : Int)
  /-- `end_connection(sock)` -/
  | serverClosed
  deriving DecidableEq

namespace Event

/-- The socket that is accepted. -/
def opened : Event → Option Int
  | .accepted csock => some csock
  | _ => none

/-- The socket that is removed. -/
def removed : Event → Option Int
  | .closed csock => some csock
  | _ => none

/-- The socket on which `read_client` returned 0. -/
def zeroRead : Event → Option Int
  | .clientRead csock [] => some csock
  | _ => none

/-- The block passed to `send`, with the socket. -/
def sentBlock : Event → Option (Int × List Byte)
  | .sent csock block => some (csock, block)
  | _ => none

/-- The non-empty block read from the device. -/
def irBlock : Event → Option (List Byte)
  | .irRead (byte :: block) => some (byte :: block)
  | _ => none

/-- The block written to the device. -/
def written : Event → Option (List Byte)
  | .irWrite block => some block
  | _ => none

/-- The non-empty block received from a client. -/
def clientBlock : Event → Option (List Byte)
  | .clientRead _ (byte :: block) => some (byte :: block)
  | _ => none

theorem clientBlock_clientRead {block : List Byte} (h : block ≠ []) (csock : Int) :
    clientBlock (.clientRead csock block) = some block := by
  cases block with
  | nil => exact absurd rfl h
  | cons byte block => rfl

theorem zeroRead_clientRead {block : List Byte} (h : block ≠ []) (csock : Int) :
    zeroRead (.clientRead csock block) = none := by
  cases block with
  | nil => exact absurd rfl h
  | cons byte block => rfl

theorem irBlock_irRead {block : List Byte} (h : block ≠ []) :
    irBlock (.irRead block) = some block := by
  cases block with
  | nil => exact absurd rfl h
  | cons byte block => rfl

end Event

/-- The sockets accepted and not yet removed, in accept order. -/
def alive (table : List Int) (events : List Event) : List Int :=
  events.foldl
    (fun table event =>
      match event with
      | .accepted csock => table ++ [csock]
      | .closed csock => table.erase csock
      | _ => table)
    table

/-! ## Steps -/

/-- What one iteration finds in its environment. -/
structure Environment where
  /-- the device -/
  irRead : ReadResult
  /-- `accept` -/
  accept : Int
  /-- `recv`, for each socket -/
  recv : Int → ReadResult

/-- Clients that are gone: a read that returns 0 and a removal for each. -/
def goneEvents (gone : List Int) : List Event :=
  gone.flatMap fun csock => [.clientRead csock [], .closed csock]

/-- A client that has something to say. -/
def servedEvents (csock : Int) (block : List Byte) : List Event :=
  [.clientRead csock block, .irWrite block, .flushed]

/-- One iteration of a relay with the sockets `table`. -/
inductive Relay.Step (env : Environment) (table : List Int) : List Event → List Int → Prop where
  /-- a signal ends the service -/
  | stopped :
      Relay.Step env table (.irClosed :: table.map .cleared ++ [.serverClosed]) table
  /-- `select` failed -/
  | failed : Relay.Step env table [] table
  /-- the device spoke: to everyone -/
  | ir :
      Relay.Step env table
        (.irRead env.irRead.bytes ::
          if env.irRead.bytes = [] then [] else table.map (.sent · env.irRead.bytes))
        table
  | refused : Relay.Step env table [.acceptFailed] table
  | accepted (fresh : env.accept ∉ table) :
      Relay.Step env table [.accepted env.accept] (table ++ [env.accept])
  /-- some clients are gone -/
  | pass (gone : List Int)
      (hgone : ∀ csock ∈ gone, csock ∈ table ∧ (env.recv csock).bytes = []) :
      Relay.Step env table (goneEvents gone) (gone.foldl List.erase table)
  /-- some clients are gone and one speaks: to the device -/
  | served (gone : List Int)
      (hgone : ∀ csock ∈ gone, csock ∈ table ∧ (env.recv csock).bytes = [])
      (csock : Int) (hcsock : csock ∈ table) (hblock : (env.recv csock).bytes ≠ []) :
      Relay.Step env table (goneEvents gone ++ servedEvents csock (env.recv csock).bytes)
        (gone.foldl List.erase table)

/-- A step in some environment. -/
def Relay.Next (table : List Int) (events : List Event) (table' : List Int) : Prop :=
  ∃ env, Relay.Step env table events table'

/-! ## One iteration -/

theorem alive_append (table : List Int) (first rest : List Event) :
    alive table (first ++ rest) = alive (alive table first) rest :=
  List.foldl_append

theorem alive_goneEvents (table gone : List Int) :
    alive table (goneEvents gone) = gone.foldl List.erase table := by
  induction gone generalizing table with
  | nil => rfl
  | cons csock gone ih => exact ih (table.erase csock)

theorem alive_of_quiet {table : List Int} {events : List Event}
    (h : ∀ event ∈ events, ∀ csock, event ≠ .accepted csock ∧ event ≠ .closed csock) :
    alive table events = table := by
  induction events with
  | nil => rfl
  | cons event events ih =>
      have hrest := ih fun e he => h e (List.mem_cons_of_mem event he)
      have hhead := h event List.mem_cons_self
      cases event with
      | accepted csock => exact absurd rfl (hhead csock).1
      | closed csock => exact absurd rfl (hhead csock).2
      | _ => exact hrest

/-- The events of the way out, one kind at a time. -/
theorem forall_mem_stopped {p : Event → Prop} (hir : p .irClosed)
    (hcleared : ∀ csock, p (.cleared csock)) (hserver : p .serverClosed) (table : List Int) :
    ∀ event ∈ .irClosed :: table.map .cleared ++ [.serverClosed], p event := by
  intro event hevent
  rw [List.cons_append, List.mem_cons, List.mem_append, List.mem_map,
    List.mem_singleton] at hevent
  rcases hevent with rfl | ⟨csock, _, rfl⟩ | rfl
  · exact hir
  · exact hcleared csock
  · exact hserver

/-- A projection that sees nothing of the clients that are gone. -/
theorem filterMap_goneEvents {α : Type} {f : Event → Option α}
    (h : ∀ csock, f (.clientRead csock []) = none ∧ f (.closed csock) = none)
    (gone : List Int) : (goneEvents gone).filterMap f = [] := by
  induction gone with
  | nil => rfl
  | cons csock gone ih =>
      obtain ⟨hread, hclosed⟩ := h csock
      change List.filterMap f (.clientRead csock [] :: .closed csock :: goneEvents gone) = []
      rw [List.filterMap_cons_none hread, List.filterMap_cons_none hclosed, ih]

/-- A projection that sees nothing of one kind of event. -/
theorem filterMap_map_none {α : Type} {f : Event → Option α} {g : Int → Event}
    (h : ∀ csock, f (g csock) = none) (table : List Int) : (table.map g).filterMap f = [] := by
  rw [List.filterMap_map, List.filterMap_eq_nil_iff]
  exact fun csock _ => h csock

theorem removed_goneEvents (gone : List Int) :
    (goneEvents gone).filterMap Event.removed = gone := by
  induction gone with
  | nil => rfl
  | cons csock gone ih => exact congrArg (csock :: ·) ih

theorem zeroRead_goneEvents (gone : List Int) :
    (goneEvents gone).filterMap Event.zeroRead = gone := by
  induction gone with
  | nil => rfl
  | cons csock gone ih => exact congrArg (csock :: ·) ih

theorem not_cleared_goneEvents (gone : List Int) (csock : Int) :
    .cleared csock ∉ goneEvents gone := by
  simp [goneEvents]

/-- What one iteration does, as far as it can be seen from its events. -/
structure Relays (table : List Int) (events : List Event) (table' : List Int) : Prop where
  /-- the table loses what was removed and gains what was accepted -/
  table_eq : table' = alive table events
  nodup : table.Nodup → table'.Nodup
  /-- a socket is removed for each read that returned 0, and for nothing else -/
  removed_eq : events.filterMap Event.removed = events.filterMap Event.zeroRead
  /-- the other sockets are closed on the way out -/
  cleared_out : ∀ csock, .cleared csock ∈ events → .serverClosed ∈ events
  /-- a block from the device goes to every socket once, unmodified -/
  sent_eq : events.filterMap Event.sentBlock =
    (events.filterMap Event.irBlock).flatMap fun block => table.map fun csock => (csock, block)
  /-- what is written to the device is what was received from clients -/
  written_eq : events.filterMap Event.written = events.filterMap Event.clientBlock

theorem nodup_foldl_erase (gone : List Int) {table : List Int} (h : table.Nodup) :
    (gone.foldl List.erase table).Nodup := by
  induction gone generalizing table with
  | nil => exact h
  | cons csock gone ih => exact ih (h.erase csock)

/-- Every iteration relays. -/
theorem Relay.Step.relays {env : Environment} {table table' : List Int} {events : List Event}
    (h : Relay.Step env table events table') : Relays table events table' := by
  cases h with
  | stopped =>
      refine ⟨(alive_of_quiet ?_).symm, id, ?_, fun _ _ => by simp, ?_, ?_⟩
      · exact forall_mem_stopped (by simp) (by simp) (by simp) table
      all_goals
        rw [List.cons_append, List.filterMap_cons_none rfl, List.filterMap_cons_none rfl,
          List.filterMap_append, List.filterMap_append, filterMap_map_none fun _ => rfl,
          filterMap_map_none fun _ => rfl]
        rfl
  | failed => exact ⟨rfl, id, rfl, by simp, rfl, rfl⟩
  | ir =>
      by_cases hblock : env.irRead.bytes = []
      · rw [if_pos hblock, hblock]
        exact ⟨rfl, id, rfl, by simp, rfl, rfl⟩
      · rw [if_neg hblock]
        refine ⟨(alive_of_quiet (by simp)).symm, id, ?_, by simp, ?_, ?_⟩
        · rw [List.filterMap_cons_none rfl, List.filterMap_cons_none rfl,
            filterMap_map_none fun _ => rfl, filterMap_map_none fun _ => rfl]
        · rw [List.filterMap_cons_some (Event.irBlock_irRead hblock),
            List.filterMap_cons_none rfl, filterMap_map_none (f := Event.irBlock) fun _ => rfl,
            List.flatMap_singleton, List.filterMap_map]
          exact congrFun (List.filterMap_eq_map (f := (·, env.irRead.bytes))) table
        · rw [List.filterMap_cons_none rfl, List.filterMap_cons_none rfl,
            filterMap_map_none fun _ => rfl, filterMap_map_none fun _ => rfl]
  | refused => exact ⟨rfl, id, rfl, by simp, rfl, rfl⟩
  | accepted fresh =>
      refine ⟨rfl, fun hnodup => ?_, rfl, by simp, rfl, rfl⟩
      rw [List.nodup_append]
      refine ⟨hnodup, by simp, fun a ha b hb hab => ?_⟩
      rw [List.mem_singleton] at hb
      exact fresh (hb ▸ hab ▸ ha)
  | pass gone _ =>
      refine ⟨(alive_goneEvents table gone).symm, nodup_foldl_erase gone, ?_, ?_, ?_, ?_⟩
      · rw [removed_goneEvents, zeroRead_goneEvents]
      · exact fun csock hcsock => absurd hcsock (not_cleared_goneEvents gone csock)
      · rw [filterMap_goneEvents fun _ => ⟨rfl, rfl⟩, filterMap_goneEvents fun _ => ⟨rfl, rfl⟩]
        rfl
      · rw [filterMap_goneEvents fun _ => ⟨rfl, rfl⟩, filterMap_goneEvents fun _ => ⟨rfl, rfl⟩]
  | served gone _ csock _ hblock =>
      generalize (env.recv csock).bytes = block at hblock
      refine ⟨?_, nodup_foldl_erase gone, ?_, ?_, ?_, ?_⟩
      · rw [alive_append, alive_goneEvents]
        rfl
      · rw [List.filterMap_append, List.filterMap_append, removed_goneEvents,
          zeroRead_goneEvents, servedEvents,
          List.filterMap_cons_none (Event.zeroRead_clientRead hblock csock)]
        rfl
      · intro other hother
        rcases List.mem_append.mp hother with hother | hother
        · exact absurd hother (not_cleared_goneEvents gone other)
        · simp [servedEvents] at hother
      · rw [List.filterMap_append, List.filterMap_append,
          filterMap_goneEvents fun _ => ⟨rfl, rfl⟩, filterMap_goneEvents fun _ => ⟨rfl, rfl⟩]
        rfl
      · rw [List.filterMap_append, List.filterMap_append,
          filterMap_goneEvents fun _ => ⟨rfl, rfl⟩, filterMap_goneEvents fun _ => ⟨rfl, rfl⟩,
          servedEvents, List.filterMap_cons_some (Event.clientBlock_clientRead hblock csock)]
        rfl

/-! ## Runs -/

/-- What holds of a whole run: of the iterations so far, and of the table after
them. -/
structure RelayInvariant (trace : List (List Event)) (table : List Int) : Prop where
  /-- the table is the list of sockets accepted and not yet removed, in accept
  order -/
  table_eq : table = alive [] trace.flatten
  /-- without duplicates -/
  nodup : table.Nodup
  /-- in every iteration the sockets removed are those on which a read returned
  0 -/
  removed_eq : ∀ events ∈ trace,
    events.filterMap Event.removed = events.filterMap Event.zeroRead
  /-- the other sockets are closed on the way out -/
  cleared_out : ∀ events ∈ trace, ∀ csock, .cleared csock ∈ events → .serverClosed ∈ events
  /-- every non-empty block from the device is sent once to each socket then in
  the table, and to no other -/
  sent_eq : ∀ before events after, trace = before ++ events :: after →
    events.filterMap Event.sentBlock = (events.filterMap Event.irBlock).flatMap
      fun block => (alive [] before.flatten).map fun csock => (csock, block)
  /-- the blocks written to the device are the non-empty blocks received, in
  order -/
  written_eq : trace.flatten.filterMap Event.written =
    trace.flatten.filterMap Event.clientBlock

theorem RelayInvariant.start : RelayInvariant [] [] where
  table_eq := rfl
  nodup := List.nodup_nil
  removed_eq := by simp
  cleared_out := by simp
  sent_eq := by simp
  written_eq := rfl

/-- Iterations that relay keep the invariant. -/
theorem RelayInvariant.snoc {trace : List (List Event)} {table table' : List Int}
    {events : List Event} (h : RelayInvariant trace table)
    (hstep : Relays table events table') : RelayInvariant (trace ++ [events]) table' where
  table_eq := by
    rw [hstep.table_eq, h.table_eq, List.flatten_append, List.flatten_singleton, alive_append]
  nodup := hstep.nodup h.nodup
  removed_eq := by
    intro e he
    rcases List.mem_append.mp he with he | he
    · exact h.removed_eq e he
    · rw [List.mem_singleton.mp he]
      exact hstep.removed_eq
  cleared_out := by
    intro e he
    rcases List.mem_append.mp he with he | he
    · exact h.cleared_out e he
    · rw [List.mem_singleton.mp he]
      exact hstep.cleared_out
  sent_eq := by
    intro before e after hsplit
    rcases List.eq_nil_or_concat after with rfl | ⟨after', last, rfl⟩
    · -- The iteration is the last one.
      obtain ⟨rfl, he⟩ := List.append_inj' hsplit rfl
      obtain rfl := (List.cons.inj he).1
      rw [hstep.sent_eq, h.table_eq]
    · rw [List.concat_eq_append, ← List.cons_append, ← List.append_assoc] at hsplit
      exact h.sent_eq before e after' (List.append_inj' hsplit rfl).1
  written_eq := by
    rw [List.flatten_append, List.flatten_singleton, List.filterMap_append,
      List.filterMap_append, h.written_eq, hstep.written_eq]

/-- Every run of a relay keeps the invariant. -/
theorem relay_invariant {trace : List (List Event)} {table : List Int}
    (hrun : Steps Relay.Next [] trace table) : RelayInvariant trace table :=
  hrun.invariant RelayInvariant .start fun _ _ _ _ hinv ⟨_, hstep⟩ => hinv.snoc hstep.relays

end IrBridge.Daemon
