/-
  Daemon/Bridge.lean --- the select loop of `main_demonized`.

  One iteration is a function of what its system calls return.  The loop serves
  one thing an iteration: the device before a new connection, a new connection
  before the clients, and the clients up to the first one that has something to
  say.  The clients are visited by index in a table that `remove_client` compacts
  meanwhile, so the client that moves into the gap is not visited in that pass.

  `Bridge.Step` is one iteration under what the daemon relies on: an accepted
  descriptor is not open already, and there is room for it.  Every such step is a
  step of the relay, which gives the invariants of all runs, `bridge_relays`.
-/
import IrBridge.Daemon.Server
import IrBridge.Scale.Starfrit

set_option autoImplicit false

namespace IrBridge.Daemon

open IrBridge.Foundation
open IrBridge.Codec
open IrBridge.Platform
open IrBridge.Scale

/-! ## State -/

/-- What is fixed when the loop begins. -/
structure Config where
  /-- the infrared device -/
  fd : Int
  /-- the listening socket -/
  sock : Int
  /-- `conf.starfrit` -/
  starfrit : Bool
  /-- the sizes of the target -/
  dataModel : DataModel
  /-- the results of `time` -/
  clock : Nat → Int

/-- Where the daemon is. -/
inductive Phase where
  /-- in the loop -/
  | serving
  /-- out of the loop, `return 0` -/
  | left
  /-- `return errno` -/
  | returned (errno : Int)
  | crashed (fault : Fault)
  deriving DecidableEq

/-- The globals of the daemon. -/
structure Bridge where
  server : Server
  /-- the decoder of `starfrit_process` -/
  decoder : DecodeState
  starfrit : Starfrit
  phase : Phase

/-- The daemon when it enters the loop. -/
def Bridge.start : Bridge := ⟨Server.start, DecodeState.start, Starfrit.start, .serving⟩

/-- `EINTR`. -/
def eintr : Int := 4

/-- The result of `select`. -/
inductive Select where
  | ready (set : Int → Bool)
  | failed (errno : Int)

/-- What the calls of one iteration return. -/
structure Round extends Environment where
  select : Select

/-! ## The descriptors waited for -/

/-- The set handed to `select`. -/
def watched (cfg : Config) (server : Server) : List Int :=
  cfg.fd :: cfg.sock :: ((List.range server.count).map server.client).filter (0 < ·)

/-- `MAX_FD`. -/
def maxFd (rdfs : List Int) : Int := rdfs.foldl max 0 + 1

/-- The set after `select`. -/
def selected (rdfs : List Int) (set : Int → Bool) : List Int :=
  rdfs.filter fun d => d < maxFd rdfs ∧ set d

/-! ## The branches -/

/-- Something from IR. -/
def Bridge.irBranch (cfg : Config) (c : ReadResult) (b : Bridge) : Bridge × List Event :=
  let events := .irRead c.bytes ::
    if c.result > 0 then b.server.writeToallclients c.bytes else []
  if cfg.starfrit then
    match starfritRead cfg.dataModel cfg.clock c (b.decoder, b.starfrit) with
    | .ok (decoder, starfrit) => ({ b with decoder := decoder, starfrit := starfrit }, events)
    | .error fault => ({ b with phase := .crashed fault }, events)
  else (b, events)

/-- Something from the connection socket. -/
def Bridge.acceptBranch (csock : Int) (b : Bridge) : Bridge × List Event :=
  if csock = -1 then (b, [.acceptFailed])
  else
    match b.server.addClient csock with
    | .ok server => ({ b with server := server }, [.accepted csock])
    | .error fault => ({ b with phase := .crashed fault }, [.accepted csock])

/-- Something from client sockets: the loop over the table from `idx` on. -/
def clientPass (rdfs : List Int) (recv : Int → ReadResult) (idx : Nat) (server : Server) :
    Server × List Event :=
  if idx < server.count then
    let csocket := server.client idx
    if csocket < 0 then clientPass rdfs recv (idx + 1) server
    else if server.client idx ∉ rdfs then clientPass rdfs recv (idx + 1) server
    else if Server.readClient (recv csocket) = 0 then
      let rest := clientPass rdfs recv (idx + 1) (server.removeClient csocket)
      (rest.1, .clientRead csocket [] :: .closed csocket :: rest.2)
    else
      (server, [.clientRead csocket (recv csocket).bytes, .irWrite (recv csocket).bytes,
        .flushed])
  else (server, [])
termination_by server.count - idx
decreasing_by
  · omega
  · omega
  · show server.count - 1 - (idx + 1) < server.count - idx
    omega

/-- One iteration of the loop; on the way out, what follows it. -/
def Bridge.iterate (cfg : Config) (round : Round) (b : Bridge) : Bridge × List Event :=
  match round.select with
  | .failed errno =>
      if errno = eintr then
        ({ b with phase := .left }, .irClosed :: b.server.clearClients ++ [.serverClosed])
      else ({ b with phase := .returned errno }, [])
  | .ready set =>
      let rdfs := selected (watched cfg b.server) set
      if cfg.fd ∈ rdfs then b.irBranch cfg round.irRead
      else if cfg.sock ∈ rdfs then b.acceptBranch round.accept
      else
        let pass := clientPass rdfs round.recv 0 b.server
        ({ b with server := pass.1 }, pass.2)

/-! ## One iteration -/

/-- The daemon is in its loop and goes through one iteration. -/
def Bridge.Turn (cfg : Config) (b : Bridge) (events : List Event) (b' : Bridge) : Prop :=
  b.phase = .serving ∧ ∃ round, b.iterate cfg round = (b', events)

/-- What the daemon relies on when it accepts: the descriptor is not that of a
connected client, and fewer than `MAX_CLIENTS` are connected. -/
def Bridge.Admits (b : Bridge) (events : List Event) : Prop :=
  ∀ csock ∈ events.filterMap Event.opened,
    csock ∉ b.server.table ∧ b.server.count < maxClients

instance (b : Bridge) (events : List Event) : Decidable (b.Admits events) :=
  inferInstanceAs (Decidable (∀ csock ∈ _, _))

/-- An iteration under that assumption. -/
def Bridge.Step (cfg : Config) (b : Bridge) (events : List Event) (b' : Bridge) : Prop :=
  b.Turn cfg events b' ∧ b.Admits events

/-- The device is read and what it said is sent, whatever becomes of the
scale. -/
theorem irBranch_relays (cfg : Config) (env : Environment) (b : Bridge) :
    Relay.Step env b.server.table (b.irBranch cfg env.irRead).2
      (b.irBranch cfg env.irRead).1.server.table := by
  have hevents : (b.irBranch cfg env.irRead).2 = .irRead env.irRead.bytes ::
      if env.irRead.bytes = [] then [] else b.server.table.map (.sent · env.irRead.bytes) := by
    have hsent : (if env.irRead.result > 0 then
          b.server.writeToallclients env.irRead.bytes else []) =
        if env.irRead.bytes = [] then [] else
          b.server.table.map (.sent · env.irRead.bytes) := by
      rw [Server.writeToallclients_eq, ← ite_not (p := env.irRead.bytes = [])]
      exact if_congr (ReadResult.result_pos_iff _) rfl rfl
    rw [Bridge.irBranch, hsent]
    split
    · split <;> rfl
    · rfl
  have htable : (b.irBranch cfg env.irRead).1.server = b.server := by
    rw [Bridge.irBranch]
    split
    · split <;> rfl
    · rfl
  rw [hevents, htable]
  exact .ir

theorem acceptBranch_relays (env : Environment) (b : Bridge)
    (hadmits : b.Admits (b.acceptBranch env.accept).2) :
    Relay.Step env b.server.table (b.acceptBranch env.accept).2
      (b.acceptBranch env.accept).1.server.table := by
  rw [Bridge.acceptBranch] at hadmits ⊢
  split
  · exact .refused
  · rename_i hdescriptor
    rw [if_neg hdescriptor] at hadmits
    have hevents : (match b.server.addClient env.accept with
        | .ok server => ({ b with server := server }, [Event.accepted env.accept])
        | .error fault => ({ b with phase := .crashed fault }, [.accepted env.accept])).2 =
        [.accepted env.accept] := by
      split <;> rfl
    rw [hevents] at hadmits
    obtain ⟨hfresh, hroom⟩ := hadmits env.accept (List.mem_singleton_self _)
    obtain ⟨server', hadd, htable⟩ := Server.addClient_table b.server env.accept hroom
    rw [hadd]
    show Relay.Step env b.server.table [.accepted env.accept] server'.table
    rw [htable]
    exact .accepted hfresh

/-- A pass over the clients removes some on which a read returned 0, and serves
at most one on which a read returned something. -/
theorem clientPass_spec (rdfs : List Int) (recv : Int → ReadResult) (idx : Nat)
    (server : Server) :
    ∃ gone,
      (∀ csock ∈ gone, csock ∈ server.table ∧ (recv csock).bytes = []) ∧
      (clientPass rdfs recv idx server).1.table = gone.foldl List.erase server.table ∧
      ((clientPass rdfs recv idx server).2 = goneEvents gone ∨
        ∃ csock ∈ server.table, (recv csock).bytes ≠ [] ∧
          (clientPass rdfs recv idx server).2 =
            goneEvents gone ++ servedEvents csock (recv csock).bytes) := by
  have hnone : ∀ csock ∈ ([] : List Int), csock ∈ server.table ∧ (recv csock).bytes = [] := by
    simp
  fun_induction clientPass rdfs recv idx server with
  | case1 idx server hidx csocket hneg ih => exact ih hnone
  | case2 idx server hidx csocket hneg hunset ih => exact ih hnone
  | case3 idx server hidx csocket hneg hset hzero rest ih =>
      have hmem : csocket ∈ server.table := server.client_mem hidx
      have hbytes := (Server.readClient_eq_zero_iff _).mp hzero
      obtain ⟨gone, hgone, htable, hevents⟩ := ih (by simp)
      rw [server.removeClient_table hmem] at hgone htable hevents
      refine ⟨csocket :: gone, ?_, htable, ?_⟩
      · intro csock hcsock
        rcases List.mem_cons.mp hcsock with rfl | hcsock
        · exact ⟨hmem, hbytes⟩
        · exact ⟨List.mem_of_mem_erase (hgone csock hcsock).1, (hgone csock hcsock).2⟩
      · rcases hevents with hevents | ⟨csock, hcsock, hblock, hevents⟩
        · exact .inl (congrArg (.clientRead csocket [] :: .closed csocket :: ·) hevents)
        · exact .inr ⟨csock, List.mem_of_mem_erase hcsock, hblock,
            congrArg (.clientRead csocket [] :: .closed csocket :: ·) hevents⟩
  | case4 idx server hidx csocket hneg hset hsome =>
      have hmem : csocket ∈ server.table := server.client_mem hidx
      exact ⟨[], hnone, rfl, .inr ⟨csocket, hmem,
        fun hbytes => hsome ((Server.readClient_eq_zero_iff _).mpr hbytes), rfl⟩⟩
  | case5 idx server hidx => exact ⟨[], hnone, rfl, .inl rfl⟩

theorem clientPass_relays (rdfs : List Int) (env : Environment) (idx : Nat) (server : Server) :
    Relay.Step env server.table (clientPass rdfs env.recv idx server).2
      (clientPass rdfs env.recv idx server).1.table := by
  obtain ⟨gone, hgone, htable, hevents⟩ := clientPass_spec rdfs env.recv idx server
  rw [htable]
  rcases hevents with hevents | ⟨csock, hcsock, hblock, hevents⟩
  · rw [hevents]
    exact .pass gone hgone
  · rw [hevents]
    exact .served gone hgone csock hcsock hblock

/-- Every iteration of the daemon is a step of the relay. -/
theorem iterate_relays (cfg : Config) (round : Round) (b : Bridge)
    (hadmits : b.Admits (b.iterate cfg round).2) :
    Relay.Step round.toEnvironment b.server.table (b.iterate cfg round).2
      (b.iterate cfg round).1.server.table := by
  rw [Bridge.iterate] at hadmits ⊢
  generalize round.select = select at hadmits ⊢
  cases select with
  | failed errno =>
      dsimp only
      split
      · rw [Server.clearClients_eq]
        exact .stopped
      · exact .failed
  | ready set =>
      dsimp only at hadmits ⊢
      generalize selected (watched cfg b.server) set = rdfs at hadmits ⊢
      by_cases hfd : cfg.fd ∈ rdfs
      · rw [if_pos hfd]
        exact irBranch_relays cfg round.toEnvironment b
      · rw [if_neg hfd] at hadmits ⊢
        by_cases hsock : cfg.sock ∈ rdfs
        · rw [if_pos hsock] at hadmits ⊢
          exact acceptBranch_relays round.toEnvironment b hadmits
        · rw [if_neg hsock]
          exact clientPass_relays rdfs round.toEnvironment 0 b.server

theorem Bridge.Step.relays {cfg : Config} {b b' : Bridge} {events : List Event}
    (h : Bridge.Step cfg b events b') :
    Relay.Next b.server.table events b'.server.table := by
  obtain ⟨⟨_, round, hround⟩, hadmits⟩ := h
  have hevents := congrArg Prod.snd hround
  have hb' := congrArg Prod.fst hround
  subst hevents hb'
  exact ⟨round.toEnvironment, iterate_relays cfg round b hadmits⟩

/-! ## Runs -/

/-- Every run of the daemon is a run of the relay, on the sockets of its
table. -/
theorem Bridge.run_relays {cfg : Config} {trace : List (List Event)} {b : Bridge}
    (hrun : Steps (Bridge.Step cfg) Bridge.start trace b) :
    Steps Relay.Next [] trace b.server.table := by
  have hsteps : ∀ (b : Bridge) events (next : Bridge) table,
      b.server.table = table → Bridge.Step cfg b events next →
      ∃ table', Relay.Next table events table' ∧ next.server.table = table' :=
    fun _ _ _ _ htable hstep => ⟨_, htable ▸ hstep.relays, rfl⟩
  obtain ⟨table, hrelay, rfl⟩ := hrun.simulation hsteps Server.start_table
  exact hrelay

/-- In every run the table holds the sockets accepted and not yet removed, a
socket is removed when a read on it returned 0 and only then, and every block is
relayed once, unmodified, in both directions. -/
theorem bridge_relays {cfg : Config} {trace : List (List Event)} {b : Bridge}
    (hrun : Steps (Bridge.Step cfg) Bridge.start trace b) :
    RelayInvariant trace b.server.table :=
  relay_invariant (Bridge.run_relays hrun)

/-- The daemon after one more iteration, with what it did so far. -/
def Bridge.playRound (cfg : Config) (now : List (List Event) × Bridge) (round : Round) :
    Option (List (List Event) × Bridge) :=
  let next := now.2.iterate cfg round
  if now.2.phase = .serving ∧ now.2.Admits next.2 then some (now.1 ++ [next.2], next.1)
  else none

/-- A run, computed. -/
def Bridge.play (cfg : Config) (rounds : List Round) : Option (List (List Event) × Bridge) :=
  rounds.foldlM (Bridge.playRound cfg) ([], Bridge.start)

theorem Bridge.steps_of_rounds {cfg : Config} {now later : List (List Event) × Bridge}
    {rounds : List Round} (hnow : Steps (Bridge.Step cfg) Bridge.start now.1 now.2)
    (hplay : rounds.foldlM (Bridge.playRound cfg) now = some later) :
    Steps (Bridge.Step cfg) Bridge.start later.1 later.2 := by
  induction rounds generalizing now with
  | nil =>
      cases hplay
      exact hnow
  | cons round rounds ih =>
      rw [List.foldlM_cons, Option.bind_eq_bind, Option.bind_eq_some_iff] at hplay
      obtain ⟨next, hround, hrest⟩ := hplay
      rw [Bridge.playRound, Option.ite_none_right_eq_some] at hround
      obtain ⟨⟨hserving, hadmits⟩, hnext⟩ := hround
      cases hnext
      exact ih (hnow.snoc ⟨⟨hserving, round, rfl⟩, hadmits⟩) hrest

/-- What is computed is a run. -/
theorem Bridge.steps_of_play {cfg : Config} {rounds : List Round}
    {later : List (List Event) × Bridge} (hplay : Bridge.play cfg rounds = some later) :
    Steps (Bridge.Step cfg) Bridge.start later.1 later.2 :=
  Bridge.steps_of_rounds .refl hplay

/-- A bridge whose device is 3 and whose socket is 4, without the scale. -/
def plainBridge : Config := ⟨3, 4, false, .ilp32, fun _ => 0⟩

/-- A new connection. -/
def newConnection (csock : Int) : Round where
  irRead := .failed
  accept := csock
  recv := fun _ => .failed
  select := .ready (· = plainBridge.sock)

/-- The device says one byte. -/
def deviceSpeaks : Round where
  irRead := .got [1] (by decide)
  accept := -1
  recv := fun _ => .failed
  select := .ready (· = plainBridge.fd)

/-- Client 5 is gone and client 7 says one byte. -/
def neighbourLeaves : Round where
  irRead := .failed
  accept := -1
  recv := fun csock => if csock = 7 then .got [2] (by decide) else .got [] (by decide)
  select := .ready fun d => d = 5 ∨ d = 6 ∨ d = 7

/-- Three clients hear the device, the first one leaves, the second one moves
into its place and is passed over, and the third one is heard. -/
theorem bridge_relays_neighbour :
    RelayInvariant
      [[.accepted 5], [.accepted 6], [.accepted 7],
        [.irRead [1], .sent 5 [1], .sent 6 [1], .sent 7 [1]],
        [.clientRead 5 [], .closed 5, .clientRead 7 [2], .irWrite [2], .flushed]]
      [6, 7] := by
  have hplay : (Bridge.play plainBridge [newConnection 5, newConnection 6, newConnection 7,
      deviceSpeaks, neighbourLeaves]).map (fun now => (now.1, now.2.server.table)) =
      some ([[.accepted 5], [.accepted 6], [.accepted 7],
        [.irRead [1], .sent 5 [1], .sent 6 [1], .sent 7 [1]],
        [.clientRead 5 [], .closed 5, .clientRead 7 [2], .irWrite [2], .flushed]],
        [6, 7]) := by
    decide +kernel
  obtain ⟨⟨trace, b⟩, hrun, hnow⟩ := Option.map_eq_some_iff.mp hplay
  have hinvariant := bridge_relays (Bridge.steps_of_play hrun)
  rw [Prod.mk.injEq] at hnow
  rwa [hnow.1, hnow.2] at hinvariant

end IrBridge.Daemon
