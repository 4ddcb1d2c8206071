/-
  Daemon/Server.lean --- the client table, `server.c`.

  The table is an array of `MAX_CLIENTS` sockets and a count.  `remove_client`
  closes the gap it leaves by moving every later socket up by one, in place, with
  a flag that is set when the socket is met; `removeClient_table` says that the
  result is the table without that socket.

  `Server` carries the two bounds that keep every index inside the array.
  `add_client` compares its index with nothing: the store of a socket in a full
  table is a `Fault`.
-/
import Mathlib.Data.List.GetD
import IrBridge.Daemon.Relay

set_option autoImplicit false

namespace IrBridge.Daemon

open IrBridge.Platform

/-- `MAX_CLIENTS`. -/
def maxClients : Nat := 100

/-- `_clients` and `_clients_count`. -/
structure Server where
  clients : List Int
  count : Nat
  size_eq : clients.length = maxClients
  count_le : count ≤ maxClients
  deriving DecidableEq

namespace Server

/-- The zeroed globals. -/
def start : Server where
  clients := List.replicate maxClients 0
  count := 0
  size_eq := List.length_replicate
  count_le := Nat.zero_le _

/-- The sockets in use, `_clients[0.._clients_count)`. -/
def table (server : Server) : List Int := server.clients.take server.count

@[simp] theorem start_table : start.table = [] := rfl

@[simp] theorem length_table (server : Server) : server.table.length = server.count := by
  have hsize := server.size_eq
  have hcount := server.count_le
  rw [table, List.length_take]
  omega

/-! ## Looking up -/

/-- `client(idx)`. -/
def client (server : Server) (idx : Nat) : Int :=
  if idx ≥ server.count then -1 else server.clients.getD idx 0

theorem clients_getD (server : Server) {idx : Nat} (hidx : idx < server.table.length) :
    server.clients.getD idx 0 = server.table[idx] := by
  have hsize := server.size_eq
  have hcount := server.count_le
  have hlength := server.length_table
  rw [List.getD_eq_getElem _ _ (by omega)]
  exact List.getElem_take.symm

theorem client_eq (server : Server) {idx : Nat} (hidx : idx < server.table.length) :
    server.client idx = server.table[idx] := by
  have hlength := server.length_table
  rw [client, if_neg (by omega), clients_getD server hidx]

theorem client_mem (server : Server) {idx : Nat} (hidx : idx < server.count) :
    server.client idx ∈ server.table := by
  rw [← length_table] at hidx
  rw [client_eq server hidx]
  exact List.getElem_mem hidx

/-- A loop over the indices in use visits the table. -/
theorem map_range_count {α : Type} (server : Server) {f : Nat → Int} (g : Int → α)
    (hf : ∀ idx, ∀ hidx : idx < server.table.length, f idx = server.table[idx]) :
    ((List.range server.count).map fun idx => g (f idx)) = server.table.map g := by
  apply List.ext_getElem
  · simp
  · intro idx _ hidx
    rw [List.length_map] at hidx
    rw [List.getElem_map, List.getElem_map, List.getElem_range, hf idx hidx]

/-! ## Adding and removing -/

/-- What `add_client` does once `accept` has returned `csock`. -/
def addClient (server : Server) (csock : Int) : Except Fault Server :=
  if hroom : server.count < maxClients then
    .ok {
      clients := server.clients.set server.count csock
      count := server.count + 1
      size_eq := by rw [List.length_set, server.size_eq]
      count_le := hroom }
  else .error .writeOutside

/-- An accepted socket goes to the end of the table. -/
theorem addClient_table (server : Server) (csock : Int) (hroom : server.count < maxClients) :
    ∃ server', server.addClient csock = .ok server' ∧
      server'.table = server.table ++ [csock] := by
  refine ⟨_, dif_pos hroom, ?_⟩
  have hsize := server.size_eq
  show (server.clients.set server.count csock).take (server.count + 1) = _
  rw [List.take_add_one, List.take_set_of_le (Nat.le_refl _),
    List.getElem?_set_self (by omega)]
  rfl

/-- One turn of the loop of `remove_client`, on `moveup` and `_clients`. -/
def removeStep (csock : Int) (count : Nat) (now : Bool × List Int) (idx : Nat) :
    Bool × List Int :=
  let moveup := now.1 || now.2.getD idx 0 == csock
  (moveup, if moveup ∧ idx + 1 < count then now.2.set idx (now.2.getD (idx + 1) 0) else now.2)

/-- The first `n` turns. -/
def removeLoop (csock : Int) (count : Nat) (clients : List Int) (n : Nat) : Bool × List Int :=
  (List.range n).foldl (removeStep csock count) (false, clients)

theorem removeLoop_succ (csock : Int) (count : Nat) (clients : List Int) (n : Nat) :
    removeLoop csock count clients (n + 1) =
      removeStep csock count (removeLoop csock count clients n) n := by
  rw [removeLoop, List.range_succ, List.foldl_append]
  rfl

theorem length_removeLoop (csock : Int) (count : Nat) (clients : List Int) (n : Nat) :
    (removeLoop csock count clients n).2.length = clients.length := by
  induction n with
  | zero => rfl
  | succ n ih =>
      rw [removeLoop_succ, removeStep]
      dsimp only
      split
      · rw [List.length_set, ih]
      · exact ih

/-- `remove_client(csock)`, after `closesocket`. -/
def removeClient (server : Server) (csock : Int) : Server where
  clients := (removeLoop csock server.count server.clients server.count).2
  count := server.count - 1
  size_eq := by rw [length_removeLoop, server.size_eq]
  count_le := Nat.le_trans (Nat.sub_le _ _) server.count_le

/-- The socket is met within `n + 1` entries when it is met within `n`, or
next. -/
theorem meets_at (table : List Int) (csock : Int) (n : Nat) (hn : n < table.length) :
    (decide (table.idxOf csock < n) || table[n] == csock) =
      decide (table.idxOf csock < n + 1) := by
  rcases Nat.lt_trichotomy (table.idxOf csock) n with hlt | heq | hgt
  · rw [decide_eq_true hlt, decide_eq_true (Nat.lt_succ_of_lt hlt), Bool.true_or]
  · subst heq
    rw [List.getElem_idxOf, decide_eq_true (Nat.lt_succ_self _), beq_self_eq_true,
      Bool.or_true]
  · rw [decide_eq_false (by omega), decide_eq_false (by omega), Bool.false_or]
    exact List.not_of_lt_findIdx hgt

/-- After `n` turns the flag says that the socket was met, and what follows it
has moved up, as far as the loop got. -/
theorem removeLoop_spec (server : Server) (csock : Int) (n : Nat) (hn : n ≤ server.count) :
    (removeLoop csock server.count server.clients n).1 =
        decide (server.table.idxOf csock < n) ∧
      ∀ j, (removeLoop csock server.count server.clients n).2.getD j 0 =
        if server.table.idxOf csock ≤ j ∧ j < n ∧ j + 1 < server.count then
          server.clients.getD (j + 1) 0 else server.clients.getD j 0 := by
  induction n with
  | zero => exact ⟨rfl, fun j => by rw [if_neg (by omega)]; rfl⟩
  | succ n ih =>
      obtain ⟨hflag, hmoved⟩ := ih (by omega)
      have hlength := length_removeLoop csock server.count server.clients n
      have hsize := server.size_eq
      have hcount := server.count_le
      -- Neither the entry looked at nor the next one has moved yet.
      have hhere : (removeLoop csock server.count server.clients n).2.getD n 0 =
          server.clients.getD n 0 := by
        rw [hmoved n, if_neg (by omega)]
      have hnext : (removeLoop csock server.count server.clients n).2.getD (n + 1) 0 =
          server.clients.getD (n + 1) 0 := by
        rw [hmoved (n + 1), if_neg (by omega)]
      have hmeet : (decide (server.table.idxOf csock < n) ||
          server.clients.getD n 0 == csock) = decide (server.table.idxOf csock < n + 1) := by
        have hmem : n < server.table.length := by
          rw [length_table]
          exact hn
        rw [clients_getD server hmem]
        exact meets_at server.table csock n hmem
      rw [removeLoop_succ, removeStep]
      dsimp only
      rw [hflag, hhere, hnext, hmeet]
      refine ⟨rfl, fun j => ?_⟩
      by_cases hmove : server.table.idxOf csock < n + 1 ∧ n + 1 < server.count
      · rw [if_pos ⟨decide_eq_true hmove.1, hmove.2⟩, List.getD_eq_getElem?_getD,
          List.getElem?_set]
        by_cases hj : n = j
        · subst hj
          rw [if_pos rfl, if_pos (by omega), if_pos (by omega)]
          rfl
        · rw [if_neg hj, ← List.getD_eq_getElem?_getD, hmoved j]
          exact if_congr (by omega) rfl rfl
      · rw [if_neg (by simpa using hmove), hmoved j]
        exact if_congr (by omega) rfl rfl

/-- The table loses the socket, and nothing else. -/
theorem removeClient_table (server : Server) {csock : Int} (hmem : csock ∈ server.table) :
    (server.removeClient csock).table = server.table.erase csock := by
  have hpos := List.idxOf_lt_length_of_mem hmem
  have hsize := server.size_eq
  have hcount := server.count_le
  have hmoved := (removeLoop_spec server csock server.count (Nat.le_refl _)).2
  rw [length_table] at hpos
  rw [List.erase_eq_eraseIdx_of_idxOf rfl]
  apply List.ext_getElem
  · rw [length_table, List.length_eraseIdx_of_lt (by rw [length_table]; exact hpos),
      length_table]
    rfl
  · intro j hleft _
    rw [← clients_getD _ hleft]
    rw [length_table] at hleft
    change j < server.count - 1 at hleft
    have hlength := server.length_table
    show (removeLoop csock server.count server.clients server.count).2.getD j 0 = _
    rw [hmoved j, List.getElem_eraseIdx]
    by_cases hj : j < server.table.idxOf csock
    · rw [if_neg (by omega), dif_pos hj, clients_getD server (by omega)]
    · rw [if_pos (by omega), dif_neg hj, clients_getD server (by omega)]

/-! ## Input and output -/

/-- `clear_clients`. -/
def clearClients (server : Server) : List Event :=
  (List.range server.count).map fun idx => .cleared (server.clients.getD idx 0)

/-- `write_toallclients(buffer, len)`.  What `send` returns is only logged. -/
def writeToallclients (server : Server) (buffer : List Byte) : List Event :=
  (List.range server.count).map fun idx => .sent (server.client idx) buffer

theorem clearClients_eq (server : Server) :
    server.clearClients = server.table.map .cleared :=
  map_range_count server _ fun _ hidx => clients_getD server hidx

theorem writeToallclients_eq (server : Server) (buffer : List Byte) :
    server.writeToallclients buffer = server.table.map (.sent · buffer) :=
  map_range_count server (Event.sent · buffer) fun _ hidx => client_eq server hidx

/-- `read_client`: an error counts as the end of the stream. -/
def readClient (recv : ReadResult) : Int :=
  if recv.result < 0 then 0 else recv.result

theorem readClient_eq_zero_iff (recv : ReadResult) : readClient recv = 0 ↔ recv.bytes = [] := by
  cases recv with
  | failed => exact ⟨fun _ => rfl, fun _ => rfl⟩
  | got bytes fits =>
      have hpos : ¬ (bytes.length : Int) < 0 := by omega
      rw [readClient, ReadResult.result, if_neg hpos, ReadResult.bytes]
      exact Int.natCast_eq_zero.trans List.length_eq_zero_iff

end Server

end IrBridge.Daemon
