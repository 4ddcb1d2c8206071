/-
  Daemon/TableBounds.lean --- where the daemon touches the client table.

  Every access to `_clients` and every value of `_clients_count` is listed, for
  each function of `server.c` and, in order, for a whole iteration of the loop.
  The loops run below the count, and the count is lowered only where a client was
  found; the one access that is compared with nothing is the store of
  `add_client`.  So the table stays within its bounds exactly in the runs that
  accept no connection while `MAX_CLIENTS` are open.
-/
import IrBridge.Daemon.Bridge

set_option autoImplicit false

namespace IrBridge.Daemon

open IrBridge.Foundation
open IrBridge.Codec
open IrBridge.Platform
open IrBridge.Scale

/-! ## Touches -/

/-- One use of the client table. -/
inductive Touch where
  /-- `_clients[idx]` is read or written -/
  | entry (idx : Nat)
  /-- `_clients_count` takes this value -/
  | count (n : Int)
  deriving DecidableEq, Repr

/-- The index is one of the array, the count is one it may have. -/
def Touch.InBounds : Touch → Prop
  | .entry idx => idx < maxClients
  | .count n => 0 ≤ n ∧ n ≤ maxClients

namespace Server

/-- `client(idx)`. -/
def clientTouches (server : Server) (idx : Nat) : List Touch :=
  if idx ≥ server.count then [] else [.entry idx]

/-- `debug_clients_display`. -/
def displayTouches (server : Server) : List Touch :=
  (List.range server.count).map .entry

/-- `add_client`, once `accept` has returned `csock`. -/
def addTouches (server : Server) (csock : Int) : List Touch :=
  .count (server.count + 1) :: .entry server.count ::
    match server.addClient csock with
    | .ok server => server.displayTouches
    | .error _ => []

/-- One turn of the loop of `remove_client`. -/
def removeStepTouches (csock : Int) (count : Nat) (now : Bool × List Int) (idx : Nat) :
    List Touch :=
  let moveup := now.1 || now.2.getD idx 0 == csock
  .entry idx :: if moveup ∧ idx + 1 < count then [.entry (idx + 1), .entry idx] else []

/-- `remove_client(csock)`. -/
def removeTouches (server : Server) (csock : Int) : List Touch :=
  ((List.range server.count).flatMap fun idx =>
    removeStepTouches csock server.count
      (removeLoop csock server.count server.clients idx) idx) ++
    .count ((server.count : Int) - 1) ::
      ((if (server.count : Int) - 1 < 0 then [.count 0] else []) ++
        (server.removeClient csock).displayTouches)

/-- `clear_clients`. -/
def clearTouches (server : Server) : List Touch :=
  (List.range server.count).map .entry

/-- `write_toallclients`, and the loop that fills the set handed to `select`. -/
def everyClientTouches (server : Server) : List Touch :=
  (List.range server.count).flatMap server.clientTouches

end Server

/-- The loop over the clients, from `idx` on. -/
def passTouches (rdfs : List Int) (recv : Int → ReadResult) (idx : Nat) (server : Server) :
    List Touch :=
  if idx < server.count then
    let csocket := server.client idx
    let looked := server.clientTouches idx
    if csocket < 0 then looked ++ passTouches rdfs recv (idx + 1) server
    else if server.client idx ∉ rdfs then
      looked ++ (looked ++ passTouches rdfs recv (idx + 1) server)
    else if Server.readClient (recv csocket) = 0 then
      looked ++ (looked ++ (server.removeTouches csocket ++
        passTouches rdfs recv (idx + 1) (server.removeClient csocket)))
    else looked ++ looked
  else []
termination_by server.count - idx
decreasing_by
  · omega
  · omega
  · show server.count - 1 - (idx + 1) < server.count - idx
    omega

/-- One iteration of the loop; on the way out, what follows it. -/
def Bridge.touches (cfg : Config) (round : Round) (b : Bridge) : List Touch :=
  b.server.everyClientTouches ++
    match round.select with
    | .failed errno => if errno = eintr then b.server.clearTouches else []
    | .ready set =>
        let rdfs := selected (watched cfg b.server) set
        if cfg.fd ∈ rdfs then
          if round.irRead.result > 0 then b.server.everyClientTouches else []
        else if cfg.sock ∈ rdfs then
          if round.accept = -1 then [] else b.server.addTouches round.accept
        else passTouches rdfs round.recv 0 b.server

/-! ## Within the count -/

namespace Server

theorem clientTouches_inBounds (server : Server) (idx : Nat) :
    ∀ touch ∈ server.clientTouches idx, touch.InBounds := by
  intro touch htouch
  have hcount := server.count_le
  rw [clientTouches] at htouch
  split at htouch
  · exact absurd htouch List.not_mem_nil
  · obtain rfl := List.mem_singleton.mp htouch
    show idx < maxClients
    omega

theorem displayTouches_inBounds (server : Server) :
    ∀ touch ∈ server.displayTouches, touch.InBounds := by
  intro touch htouch
  have hcount := server.count_le
  obtain ⟨idx, hidx, rfl⟩ := List.mem_map.mp htouch
  have := List.mem_range.mp hidx
  show idx < maxClients
  omega

theorem everyClientTouches_inBounds (server : Server) :
    ∀ touch ∈ server.everyClientTouches, touch.InBounds := by
  intro touch htouch
  obtain ⟨idx, _, hidx⟩ := List.mem_flatMap.mp htouch
  exact server.clientTouches_inBounds idx touch hidx

/-- The loop of `remove_client` reads one entry ahead, but not beyond the last. -/
theorem removeStepTouches_inBounds {csock : Int} {count idx : Nat} {now : Bool × List Int}
    (hidx : idx < count) (hcount : count ≤ maxClients) :
    ∀ touch ∈ removeStepTouches csock count now idx, touch.InBounds := by
  intro touch htouch
  have hhere : idx < maxClients := by omega
  rcases List.mem_cons.mp htouch with rfl | htouch
  · exact hhere
  · split at htouch
    · rename_i hmove
      have hnext : idx + 1 < maxClients := by
        have := hmove.2
        omega
      rcases List.mem_cons.mp htouch with rfl | htouch
      · exact hnext
      · obtain rfl := List.mem_singleton.mp htouch
        exact hhere
    · exact absurd htouch List.not_mem_nil

/-- `remove_client` stays in bounds wherever there is a client to remove. -/
theorem removeTouches_inBounds (server : Server) (csock : Int) (hpos : 0 < server.count) :
    ∀ touch ∈ server.removeTouches csock, touch.InBounds := by
  intro touch htouch
  have hcount := server.count_le
  have hlowered : (0 : Int) ≤ (server.count : Int) - 1 := by omega
  rw [removeTouches, if_neg (Int.not_lt.mpr hlowered), List.nil_append] at htouch
  rcases List.mem_append.mp htouch with htouch | htouch
  · obtain ⟨idx, hidx, hstep⟩ := List.mem_flatMap.mp htouch
    exact removeStepTouches_inBounds (List.mem_range.mp hidx) hcount touch hstep
  · rcases List.mem_cons.mp htouch with rfl | htouch
    · refine ⟨hlowered, ?_⟩
      omega
    · exact (server.removeClient csock).displayTouches_inBounds touch htouch

/-- `add_client` is in bounds exactly while there is room. -/
theorem addTouches_inBounds_iff (server : Server) (csock : Int) :
    (∀ touch ∈ server.addTouches csock, touch.InBounds) ↔ server.count < maxClients := by
  constructor
  · intro hall
    exact hall (.entry server.count) (List.mem_cons_of_mem _ List.mem_cons_self)
  · intro hroom touch htouch
    rcases List.mem_cons.mp htouch with rfl | htouch
    · refine ⟨by omega, ?_⟩
      omega
    · rcases List.mem_cons.mp htouch with rfl | htouch
      · exact hroom
      · split at htouch
        · rename_i server' _
          exact server'.displayTouches_inBounds touch htouch
        · exact absurd htouch List.not_mem_nil

end Server

theorem passTouches_inBounds (rdfs : List Int) (recv : Int → ReadResult) (idx : Nat)
    (server : Server) : ∀ touch ∈ passTouches rdfs recv idx server, touch.InBounds := by
  fun_induction passTouches rdfs recv idx server with
  | case1 idx server hidx csocket looked hneg ih =>
      intro touch htouch
      rcases List.mem_append.mp htouch with htouch | htouch
      · exact server.clientTouches_inBounds idx touch htouch
      · exact ih touch htouch
  | case2 idx server hidx csocket looked hneg hunset ih =>
      intro touch htouch
      rcases List.mem_append.mp htouch with htouch | htouch
      · exact server.clientTouches_inBounds idx touch htouch
      · rcases List.mem_append.mp htouch with htouch | htouch
        · exact server.clientTouches_inBounds idx touch htouch
        · exact ih touch htouch
  | case3 idx server hidx csocket looked hneg hset hzero ih =>
      intro touch htouch
      have hpos : 0 < server.count := Nat.zero_lt_of_lt hidx
      rcases List.mem_append.mp htouch with htouch | htouch
      · exact server.clientTouches_inBounds idx touch htouch
      · rcases List.mem_append.mp htouch with htouch | htouch
        · exact server.clientTouches_inBounds idx touch htouch
        · rcases List.mem_append.mp htouch with htouch | htouch
          · exact server.removeTouches_inBounds csocket hpos touch htouch
          · exact ih touch htouch
  | case4 idx server hidx csocket looked hneg hset hsome =>
      intro touch htouch
      rcases List.mem_append.mp htouch with htouch | htouch
      · exact server.clientTouches_inBounds idx touch htouch
      · exact server.clientTouches_inBounds idx touch htouch
  | case5 idx server hidx =>
      intro touch htouch
      exact absurd htouch List.not_mem_nil

/-! ## One iteration -/

/-- This iteration accepts a connection: the device is silent, the listening
socket is ready, and `accept` returns a socket. -/
def Bridge.Accepts (cfg : Config) (round : Round) (b : Bridge) : Prop :=
  match round.select with
  | .failed _ => False
  | .ready set =>
      cfg.fd ∉ selected (watched cfg b.server) set ∧
        cfg.sock ∈ selected (watched cfg b.server) set ∧ round.accept ≠ -1

/-- An iteration stays in bounds if and only if it accepts no connection beyond
the last entry. -/
theorem Bridge.touches_inBounds_iff (cfg : Config) (round : Round) (b : Bridge) :
    (∀ touch ∈ b.touches cfg round, touch.InBounds) ↔
      (b.Accepts cfg round → b.server.count < maxClients) := by
  have hwatched := b.server.everyClientTouches_inBounds
  have hrest : ∀ rest : List Touch,
      (∀ touch ∈ b.server.everyClientTouches ++ rest, touch.InBounds) ↔
        ∀ touch ∈ rest, touch.InBounds := by
    intro rest
    rw [List.forall_mem_append]
    exact and_iff_right hwatched
  rw [Bridge.touches, hrest, Bridge.Accepts]
  cases round.select with
  | failed errno =>
      dsimp only
      refine iff_of_true ?_ (fun hno => hno.elim)
      split
      · exact b.server.displayTouches_inBounds
      · exact fun touch htouch => absurd htouch List.not_mem_nil
  | ready set =>
      dsimp only
      generalize selected (watched cfg b.server) set = rdfs
      by_cases hfd : cfg.fd ∈ rdfs
      · rw [if_pos hfd]
        refine iff_of_true ?_ (fun hyes => absurd hfd hyes.1)
        split
        · exact hwatched
        · exact fun touch htouch => absurd htouch List.not_mem_nil
      · rw [if_neg hfd]
        by_cases hsock : cfg.sock ∈ rdfs
        · rw [if_pos hsock]
          by_cases hfailed : round.accept = -1
          · rw [if_pos hfailed]
            refine iff_of_true ?_ (fun hyes => absurd hfailed hyes.2.2)
            exact fun touch htouch => absurd htouch List.not_mem_nil
          · rw [if_neg hfailed, Server.addTouches_inBounds_iff]
            constructor
            · exact fun hroom _ => hroom
            · exact fun hroom => hroom ⟨hfd, hsock, hfailed⟩
        · rw [if_neg hsock]
          refine iff_of_true ?_ (fun hyes => absurd hyes.2.1 hsock)
          exact passTouches_inBounds rdfs round.recv 0 b.server

/-! ## Runs -/

/-- The daemon is in its loop and goes through the iteration `round`. -/
def Bridge.Iterates (cfg : Config) (b : Bridge) (round : Round) (b' : Bridge) : Prop :=
  b.phase = .serving ∧ b' = (b.iterate cfg round).1

/-- Every use of the client table, in every iteration, is in bounds, and so is
the count in between. -/
def TableInBounds (cfg : Config) (rounds : List Round) : Prop :=
  ∀ before round after b, rounds = before ++ round :: after →
    Steps (Bridge.Iterates cfg) Bridge.start before b → b.phase = .serving →
    (0 ≤ (b.server.count : Int) ∧ b.server.count ≤ maxClients) ∧
      ∀ touch ∈ b.touches cfg round, touch.InBounds

/-- No connection is accepted while `MAX_CLIENTS` clients are connected. -/
def AcceptsWithRoom (cfg : Config) (rounds : List Round) : Prop :=
  ∀ before round after b, rounds = before ++ round :: after →
    Steps (Bridge.Iterates cfg) Bridge.start before b → b.phase = .serving →
    b.Accepts cfg round → b.server.count < maxClients

/-- In every run of the loop, the client table stays in bounds if and only if no
connection is accepted while it is full. -/
theorem table_inBounds_iff (cfg : Config) (rounds : List Round) :
    TableInBounds cfg rounds ↔ AcceptsWithRoom cfg rounds := by
  constructor
  · intro hall before round after b hrounds hrun hserving
    have htouches := (hall before round after b hrounds hrun hserving).2
    exact (Bridge.touches_inBounds_iff cfg round b).mp htouches
  · intro hall before round after b hrounds hrun hserving
    refine ⟨⟨Int.natCast_nonneg _, b.server.count_le⟩, ?_⟩
    refine (Bridge.touches_inBounds_iff cfg round b).mpr ?_
    exact hall before round after b hrounds hrun hserving

/-! ## A hundred and one connections -/

theorem le_foldl_max (a : Int) (ds : List Int) : a ≤ ds.foldl max a := by
  induction ds generalizing a with
  | nil => exact Int.le_refl a
  | cons d ds ih => exact Int.le_trans (Int.le_max_left a d) (ih (max a d))

/-- A new connection is what this iteration serves. -/
theorem newConnection_accepts (csock : Int) (hsock : csock ≠ -1) (b : Bridge) :
    b.Accepts plainBridge (newConnection csock) := by
  have hmax : (4 : Int) < maxFd (watched plainBridge b.server) := by
    rw [maxFd, watched, List.foldl_cons, List.foldl_cons]
    have := le_foldl_max (max (max 0 plainBridge.fd) plainBridge.sock)
      (((List.range b.server.count).map b.server.client).filter (0 < ·))
    have hstart : max (max 0 plainBridge.fd) plainBridge.sock = 4 := by decide
    omega
  refine ⟨?_, ?_, hsock⟩
  · intro hmem
    have hset := (List.mem_filter.mp hmem).2
    simp [plainBridge] at hset
  · refine List.mem_filter.mpr ⟨by simp [watched], ?_⟩
    simpa [plainBridge] using hmax

/-- With room in the table it is added. -/
theorem newConnection_iterates (csock : Int) (hsock : csock ≠ -1) {b : Bridge}
    (hserving : b.phase = .serving) (hroom : b.server.count < maxClients) :
    ∃ b', Bridge.Iterates plainBridge b (newConnection csock) b' ∧
      b'.phase = .serving ∧ b'.server.count = b.server.count + 1 := by
  obtain ⟨hfd, hready, _⟩ := newConnection_accepts csock hsock b
  have hiterate : (b.iterate plainBridge (newConnection csock)).1 =
      (b.acceptBranch csock).1 := by
    rw [Bridge.iterate]
    show (if plainBridge.fd ∈ selected (watched plainBridge b.server) (· = plainBridge.sock)
      then _ else _ : Bridge × List Event).1 = _
    rw [if_neg hfd, if_pos hready]
    rfl
  have hadd : b.server.addClient csock = .ok ⟨b.server.clients.set b.server.count csock,
      b.server.count + 1, by rw [List.length_set, b.server.size_eq], hroom⟩ :=
    dif_pos hroom
  refine ⟨_, ⟨hserving, rfl⟩, ?_⟩
  rw [hiterate, Bridge.acceptBranch, if_neg hsock, hadd]
  exact ⟨hserving, rfl⟩

/-- The descriptors 5, 6, 7, ... accepted one after another. -/
def connections (n : Nat) : List Round :=
  (List.range n).map fun k : Nat => newConnection ((k : Int) + 5)

theorem connections_run {n : Nat} (hn : n ≤ maxClients) :
    ∃ b, Steps (Bridge.Iterates plainBridge) Bridge.start (connections n) b ∧
      b.phase = .serving ∧ b.server.count = n := by
  induction n with
  | zero => exact ⟨Bridge.start, .refl, rfl, rfl⟩
  | succ n ih =>
      obtain ⟨b, hrun, hserving, hcount⟩ := ih (by omega)
      obtain ⟨b', hstep, hserving', hcount'⟩ :=
        newConnection_iterates (n + 5) (by omega) hserving (by omega)
      refine ⟨b', ?_, hserving', by omega⟩
      rw [connections, List.range_succ, List.map_append, List.map_singleton]
      exact hrun.snoc hstep

/-- The connection after the hundredth is stored behind the table. -/
theorem table_overflows : ¬ TableInBounds plainBridge (connections 101) := by
  intro hall
  obtain ⟨b, hrun, hserving, hcount⟩ := connections_run (Nat.le_refl maxClients)
  have hrounds : connections 101 = connections maxClients ++ newConnection 105 :: [] := by
    rw [connections, List.range_succ, List.map_append, List.map_singleton]
    rfl
  have htouches := (hall _ _ _ b hrounds hrun hserving).2
  have hroom := (Bridge.touches_inBounds_iff plainBridge (newConnection 105) b).mp htouches
    (newConnection_accepts 105 (by decide) b)
  omega

end IrBridge.Daemon
