/-
  Daemon/Live.lean --- the daemon as a process.

  `Bridge` is what the daemon keeps.  Its process can die of more: a descriptor
  that does not fit the set handed to `select`, a `send` to a client whose
  connection is broken, which raises `SIGPIPE` with nothing to handle it, and
  whatever the receiver of the scale does in `int` and in `push_measurement`.

  As long as the process is in its loop it is a `Bridge` that does the same, with
  the readings of its clock cut to `int`, and what it has run are the pushes of
  that `Bridge` (`Live.run_bridge`).  It is in its loop after some iterations
  exactly if it survives each of them where it stands (`serves_iff`).
-/
import IrBridge.Daemon.Descriptors
import IrBridge.Daemon.LateJoiner
import IrBridge.Scale.Commands

set_option autoImplicit false

namespace IrBridge.Daemon

open IrBridge.Foundation
open IrBridge.Codec
open IrBridge.Platform
open IrBridge.Scale

/-! ## The process -/

/-- `FD_SETSIZE`. -/
def fdSetSize : Int := 1024

/-- What the calls of one iteration return, and the state of the connections. -/
structure LiveRound extends Round where
  /-- a `send` on this socket raises `SIGPIPE` -/
  broken : Int → Bool

/-- The daemon with what it has run. -/
structure Live where
  bridge : Bridge
  /-- the commands given to `system` -/
  run : List (List Char)
  /-- `SIGPIPE` was raised -/
  killed : Bool

/-- The daemon when it enters the loop. -/
def Live.start : Live := ⟨Bridge.start, [], false⟩

/-- It is in its loop. -/
def Live.Serving (d : Live) : Prop := d.killed = false ∧ d.bridge.phase = .serving

/-- `write_toallclients`, and whether it is the end of the process: the first `send`
on a broken connection is. -/
def liveSend (broken : Int → Bool) (server : Server) (buffer : List Byte) : List Event × Bool :=
  let csocks := (List.range server.count).map server.client
  ((csocks.takeWhile fun csock => !broken csock).map (.sent · buffer), csocks.any broken)

/-- This iteration reads the device. -/
def Bridge.readsDevice (cfg : Config) (round : Round) (b : Bridge) : Bool :=
  match round.select with
  | .failed _ => false
  | .ready set => decide (cfg.fd ∈ selected (watched cfg b.server) set)

/-- The configuration, with its clock cut to `int`. -/
def Config.inInt (cfg : Config) : Config := { cfg with clock := intClock cfg.clock }

section Iteration

-- `push` is `push_measurement`, with the table of the process.
variable (cfg : Config) (push : Rat → Except Fault (List (List Char)))

/-- `starfrit_process(buffer, c)`. -/
def liveRead (c : ReadResult) (now : DecodeState × Starfrit × List (List Char)) :
    Except Fault (DecodeState × Starfrit × List (List Char)) :=
  starfritLoop (starfritFramePush push cfg.clock) c.bytes (toSize cfg.dataModel c.result) now

/-- Something from IR. -/
def Live.irBranch (broken : Int → Bool) (c : ReadResult) (d : Live) : Live × List Event :=
  let sends := if c.result > 0 then liveSend broken d.bridge.server c.bytes else ([], false)
  let events := .irRead c.bytes :: sends.1
  if sends.2 then ({ d with killed := true }, events)
  else if cfg.starfrit then
    match liveRead cfg push c (d.bridge.decoder, d.bridge.starfrit, d.run) with
    | .ok (decoder, starfrit, run) =>
        ({ d with
            bridge := { d.bridge with decoder := decoder, starfrit := starfrit }
            run := run }, events)
    | .error fault => ({ d with bridge := { d.bridge with phase := .crashed fault } }, events)
  else (d, events)

/-- One iteration of the loop.  `FD_SET` stores outside the set if a descriptor does
not fit. -/
def Live.iterate (round : LiveRound) (d : Live) : Live × List Event :=
  if ∀ x ∈ watched cfg d.bridge.server, 0 ≤ x ∧ x < fdSetSize then
    if d.bridge.readsDevice cfg round.toRound then d.irBranch cfg push round.broken round.irRead
    else
      let next := d.bridge.iterate cfg round.toRound
      ({ d with bridge := next.1 }, next.2)
  else ({ d with bridge := { d.bridge with phase := .crashed .writeOutside } }, [])

/-- The daemon is in its loop and goes through the iteration `round`. -/
def Live.Iterates (d : Live) (round : LiveRound) (d' : Live) : Prop :=
  d.Serving ∧ d' = (d.iterate cfg push round).1

/-- An iteration under what the daemon relies on. -/
def Live.Step (d : Live) (events : List Event) (d' : Live) : Prop :=
  (d.Serving ∧ ∃ round, d.iterate cfg push round = (d', events)) ∧ d.bridge.Admits events

/-! ## What it takes to survive -/

/-- The frames that the scale's receiver takes from a read. -/
def Live.frames (c : ReadResult) (d : Live) : List CString :=
  (unkn0.wordMachine.run d.bridge.decoder (wordsOf c.bytes)).2

/-- The scale's receiver is given whole words, its numbers stay in the range of
`int`, and every push it comes to is carried out. -/
structure Live.Processes (c : ReadResult) (d : Live) : Prop where
  whole : 0 ≤ c.result ∧ 4 ∣ c.result
  fits : ScaleFits cfg.clock d.bridge.starfrit (d.frames c)
  pushes : ∀ weight ∈ d.bridge.starfrit.newPushes
      ((d.frames c).foldl (starfritFrame (intClock cfg.clock)) d.bridge.starfrit),
    ∃ commands, push weight = .ok commands

/-- The daemon goes on. -/
structure Live.Survives (round : LiveRound) (d : Live) : Prop where
  /-- every descriptor fits the set -/
  descriptors : ∀ x ∈ watched cfg d.bridge.server, 0 ≤ x ∧ x < fdSetSize
  /-- `select` returns -/
  selects : ∃ set, round.select = .ready set
  /-- what the device says is sent on connections that are there -/
  sends : d.bridge.readsDevice cfg round.toRound = true → 0 < round.irRead.result →
    ∀ csock ∈ d.bridge.server.table, round.broken csock = false
  /-- and measured -/
  scale : d.bridge.readsDevice cfg round.toRound = true → cfg.starfrit = true →
    d.Processes cfg push round.irRead
  /-- a connection finds room in the table -/
  accepts : d.bridge.Accepts cfg round.toRound → d.bridge.server.count < maxClients

/-! ## The device branch -/

variable {cfg push}

theorem map_client (server : Server) :
    (List.range server.count).map server.client = server.table :=
  (Server.map_range_count server id fun _ hidx => Server.client_eq server hidx).trans
    (List.map_id _)

/-- The sends on connections that are all there. -/
theorem liveSend_of_unbroken {broken : Int → Bool} {server : Server}
    (h : ∀ csock ∈ server.table, broken csock = false) (buffer : List Byte) :
    liveSend broken server buffer = (server.writeToallclients buffer, false) := by
  have hreached : (server.table.takeWhile fun csock => !broken csock) = server.table :=
    List.takeWhile_eq_self_iff.mpr fun csock hcsock => by rw [h csock hcsock]; rfl
  have hnone : server.table.any broken = false :=
    List.any_eq_false.mpr fun csock hcsock => by rw [h csock hcsock]; exact Bool.false_ne_true
  rw [liveSend, map_client, Server.writeToallclients_eq, hreached, hnone]

theorem liveSend_kills_iff (broken : Int → Bool) (server : Server) (buffer : List Byte) :
    (liveSend broken server buffer).2 = false ↔
      ∀ csock ∈ server.table, broken csock = false := by
  rw [liveSend, map_client, List.any_eq_false]
  exact forall₂_congr fun csock _ => Bool.eq_false_iff.symm

/-- The receiver of the process is that of the bridge, where it goes through. -/
theorem liveRead_ok_iff {c : ReadResult} {st st' : DecodeState} {s s' : Starfrit}
    {run run' : List (List Char)} :
    liveRead cfg push c (st, s, run) = .ok (st', s', run') ↔
      ScaleFits cfg.clock s (unkn0.wordMachine.run st (wordsOf c.bytes)).2 ∧
        starfritRead cfg.dataModel (intClock cfg.clock) c (st, s) = .ok (st', s') ∧
        runPushes push run (s.newPushes s') = .ok run' := by
  cases c with
  | failed =>
      obtain ⟨e, he⟩ := receiveLoopIn_unaligned unkn0
        (fun now st => starfritFramePush push cfg.clock now st.taken) []
        (Client.toSize_minusOne_pos cfg.dataModel) st (s, run)
      have herror : liveRead cfg push .failed (st, s, run) = .error e := he
      rw [herror, Client.starfritRead_failed]
      exact iff_of_false (fun h => by cases h) fun h => by cases h.2.1
  | got bytes hfits =>
      have hlen := hfits
      rw [bufSize] at hlen
      have hsize : toSize cfg.dataModel bytes.length = bytes.length := by
        rw [toSize_of_range cfg.dataModel (by omega) (by omega), Int.toNat_natCast]
      have hloop : liveRead cfg push (.got bytes hfits) (st, s, run) =
          receiveLoopIn unkn0 (fun now st => starfritFramePush push cfg.clock now st.taken)
            (wordsOf bytes) bytes.length st (s, run) := by
        rw [liveRead, starfritLoop, ReadResult.bytes, ReadResult.result, hsize]
      rw [hloop, receiveLoopIn_ok_iff, foldlM_starfritFramePush_ok_iff]
      by_cases hwhole : 4 ∣ bytes.length
      · have hresult : 0 ≤ (ReadResult.got bytes hfits).result ∧
            4 ∣ (ReadResult.got bytes hfits).result :=
          ⟨Int.natCast_nonneg _, Int.natCast_dvd_natCast.mpr hwhole⟩
        rw [starfritRead_eq_run _ _ _ _ hresult, Except.ok.injEq, Prod.mk.injEq]
        constructor
        · rintro ⟨_, hst, hscale, hs, hrun⟩
          exact ⟨hscale, ⟨hst.symm, hs.symm⟩, hrun⟩
        · rintro ⟨hscale, ⟨hst, hs⟩, hrun⟩
          exact ⟨hwhole, hst.symm, hscale, hs.symm, hrun⟩
      · refine iff_of_false (fun h => hwhole h.1) fun h => hwhole ?_
        have hread := (Client.starfritRead_ok_iff cfg.dataModel _ (.got bytes hfits) st s).mp
          ⟨_, h.2.1⟩
        exact whole_of_result hread

theorem runPushes_ok_iff (run : List (List Char)) (weights : List Rat) :
    (∃ run', runPushes push run weights = .ok run') ↔
      ∀ weight ∈ weights, ∃ commands, push weight = .ok commands := by
  refine foldlM_ok_iff (fun run weight _ => ?_) run
  cases push weight with
  | error e => exact iff_of_false (fun ⟨_, h⟩ => by cases h) fun ⟨_, h⟩ => by cases h
  | ok commands => exact iff_of_true ⟨_, rfl⟩ ⟨_, rfl⟩

/-- It goes through the bytes of a read exactly then. -/
theorem Live.processes_iff (c : ReadResult) (d : Live) :
    (∃ out, liveRead cfg push c (d.bridge.decoder, d.bridge.starfrit, d.run) = .ok out) ↔
      d.Processes cfg push c := by
  constructor
  · rintro ⟨⟨st', s', run'⟩, hout⟩
    obtain ⟨hscale, hread, hrun⟩ := liveRead_ok_iff.mp hout
    have hwhole := (Client.starfritRead_ok_iff _ _ _ _ _).mp ⟨_, hread⟩
    rw [starfritRead_eq_run _ _ _ _ hwhole] at hread
    obtain ⟨_, rfl⟩ := Prod.mk.inj (Except.ok.inj hread)
    exact ⟨hwhole, hscale, (runPushes_ok_iff d.run _).mp ⟨run', hrun⟩⟩
  · rintro ⟨hwhole, hscale, hpushes⟩
    obtain ⟨run', hrun⟩ := (runPushes_ok_iff d.run _).mpr hpushes
    exact ⟨(_, _, run'),
      liveRead_ok_iff.mpr ⟨hscale, starfritRead_eq_run _ _ _ _ hwhole, hrun⟩⟩

/-- The process goes on after a read. -/
theorem irBranch_serving_iff {broken : Int → Bool} (c : ReadResult) {d : Live}
    (hserving : d.Serving) :
    (d.irBranch cfg push broken c).1.Serving ↔
      (0 < c.result → ∀ csock ∈ d.bridge.server.table, broken csock = false) ∧
        (cfg.starfrit = true → d.Processes cfg push c) := by
  have hsends : (if c.result > 0 then liveSend broken d.bridge.server c.bytes
        else ([], false)).2 = false ↔
      (0 < c.result → ∀ csock ∈ d.bridge.server.table, broken csock = false) := by
    rw [← liveSend_kills_iff broken d.bridge.server c.bytes]
    by_cases hpos : 0 < c.result
    · rw [if_pos hpos]
      exact ⟨fun h _ => h, fun h => h hpos⟩
    · rw [if_neg hpos]
      exact iff_of_true rfl fun h => absurd h hpos
  rw [Live.irBranch, ← hsends]
  generalize (if c.result > 0 then liveSend broken d.bridge.server c.bytes
    else ([], false)) = sends
  cases hkilled : sends.2 with
  | true => exact iff_of_false (fun h => by cases h.1) fun h => by cases h.1
  | false =>
      rw [if_neg Bool.false_ne_true, and_iff_right rfl]
      by_cases hstarfrit : cfg.starfrit = true
      · rw [if_pos hstarfrit, forall_prop_of_true hstarfrit, ← Live.processes_iff]
        cases liveRead cfg push c (d.bridge.decoder, d.bridge.starfrit, d.run) with
        | ok out => exact iff_of_true hserving ⟨out, rfl⟩
        | error fault => exact iff_of_false (fun h => by cases h.2) fun ⟨_, h⟩ => by cases h
      · rw [if_neg hstarfrit]
        exact iff_of_true hserving fun h => absurd h hstarfrit

/-- Then it has done what the bridge does, and run the pushes. -/
theorem irBranch_bridge {broken : Int → Bool} (c : ReadResult) {d : Live}
    (hserving : d.Serving) (hnext : (d.irBranch cfg push broken c).1.Serving) :
    d.bridge.irBranch cfg.inInt c =
        ((d.irBranch cfg push broken c).1.bridge, (d.irBranch cfg push broken c).2) ∧
      runPushes push d.run (d.bridge.starfrit.newPushes
        (d.irBranch cfg push broken c).1.bridge.starfrit) =
          .ok (d.irBranch cfg push broken c).1.run := by
  obtain ⟨hsends, hscale⟩ := (irBranch_serving_iff c hserving).mp hnext
  have hevents : (if c.result > 0 then liveSend broken d.bridge.server c.bytes
        else ([], false)) =
      (if c.result > 0 then d.bridge.server.writeToallclients c.bytes else [], false) := by
    by_cases hpos : c.result > 0
    · rw [if_pos hpos, if_pos hpos, liveSend_of_unbroken (hsends hpos)]
    · rw [if_neg hpos, if_neg hpos]
  rw [Live.irBranch, hevents, Bridge.irBranch]
  dsimp only
  rw [if_neg Bool.false_ne_true]
  by_cases hstarfrit : cfg.starfrit = true
  · obtain ⟨⟨st', s', run'⟩, hout⟩ := (Live.processes_iff c d).mpr (hscale hstarfrit)
    obtain ⟨_, hread, hrun⟩ := liveRead_ok_iff.mp hout
    have hbridge : starfritRead cfg.inInt.dataModel cfg.inInt.clock c
        (d.bridge.decoder, d.bridge.starfrit) = .ok (st', s') := hread
    have hon : cfg.inInt.starfrit = true := hstarfrit
    rw [if_pos hstarfrit, if_pos hon, hout, hbridge]
    exact ⟨rfl, hrun⟩
  · have hoff : ¬ cfg.inInt.starfrit = true := hstarfrit
    rw [if_neg hstarfrit, if_neg hoff, Starfrit.newPushes_self]
    exact ⟨rfl, rfl⟩

/-! ## One iteration -/

/-- The cut of the clock is seen by the device branch alone. -/
theorem iterate_inInt {round : Round} {b : Bridge} (h : b.readsDevice cfg round = false) :
    b.iterate cfg.inInt round = b.iterate cfg round := by
  rw [Bridge.readsDevice] at h
  rw [Bridge.iterate, Bridge.iterate]
  cases hselect : round.select with
  | failed errno => rfl
  | ready set =>
      rw [hselect] at h
      have hsilent : cfg.fd ∉ selected (watched cfg b.server) set := of_decide_eq_false h
      dsimp only
      rw [if_neg hsilent]
      exact if_neg hsilent

theorem iterate_of_readsDevice {round : Round} {b : Bridge} (h : b.readsDevice cfg round = true) :
    b.iterate cfg.inInt round = b.irBranch cfg.inInt round.irRead := by
  rw [Bridge.readsDevice] at h
  rw [Bridge.iterate]
  cases hselect : round.select with
  | failed errno =>
      rw [hselect] at h
      cases h
  | ready set =>
      rw [hselect] at h
      exact if_pos (of_decide_eq_true h)

theorem acceptBranch_serving_iff (csock : Int) {b : Bridge} (hserving : b.phase = .serving) :
    (b.acceptBranch csock).1.phase = .serving ↔
      (csock ≠ -1 → b.server.count < maxClients) := by
  rw [Bridge.acceptBranch]
  by_cases hfailed : csock = -1
  · rw [if_pos hfailed]
    exact iff_of_true hserving fun hdescriptor => absurd hfailed hdescriptor
  · rw [if_neg hfailed]
    by_cases hroom : b.server.count < maxClients
    · obtain ⟨server', hadd, _⟩ := Server.addClient_table b.server csock hroom
      rw [hadd]
      exact iff_of_true hserving fun _ => hroom
    · have hadd : b.server.addClient csock = .error .writeOutside := dif_neg hroom
      rw [hadd]
      exact iff_of_false (fun hphase => by cases hphase) fun hall => hroom (hall hfailed)

/-- An iteration that does not read the device. -/
theorem silent_serving_iff {round : Round} {b : Bridge} (hserving : b.phase = .serving)
    (h : b.readsDevice cfg round = false) :
    (b.iterate cfg round).1.phase = .serving ↔
      (∃ set, round.select = .ready set) ∧
        (b.Accepts cfg round → b.server.count < maxClients) := by
  rw [Bridge.readsDevice] at h
  rw [Bridge.iterate, Bridge.Accepts]
  cases hselect : round.select with
  | failed errno =>
      have hnone : ¬ ∃ set, Select.failed errno = .ready set := by
        rintro ⟨_, hset⟩
        cases hset
      refine iff_of_false ?_ fun hall => hnone hall.1
      dsimp only
      split
      · exact fun hphase => by cases hphase
      · exact fun hphase => by cases hphase
  | ready set =>
      rw [hselect] at h
      have hsilent : cfg.fd ∉ selected (watched cfg b.server) set := of_decide_eq_false h
      dsimp only
      rw [if_neg hsilent, and_iff_right ⟨set, rfl⟩]
      generalize selected (watched cfg b.server) set = rdfs at hsilent
      by_cases hsock : cfg.sock ∈ rdfs
      · rw [if_pos hsock, acceptBranch_serving_iff round.accept hserving]
        exact ⟨fun hroom haccepts => hroom haccepts.2.2,
          fun hall hdescriptor => hall ⟨hsilent, hsock, hdescriptor⟩⟩
      · rw [if_neg hsock]
        exact iff_of_true hserving fun haccepts => absurd haccepts.2.1 hsock

/-- An iteration is the last one unless the daemon survives it. -/
theorem Live.iterate_serving_iff (round : LiveRound) {d : Live} (hserving : d.Serving) :
    (d.iterate cfg push round).1.Serving ↔ d.Survives cfg push round := by
  rw [Live.iterate]
  by_cases hset : ∀ x ∈ watched cfg d.bridge.server, 0 ≤ x ∧ x < fdSetSize
  · rw [if_pos hset]
    cases hreads : d.bridge.readsDevice cfg round.toRound with
    | true =>
        rw [if_pos rfl, irBranch_serving_iff round.irRead hserving]
        have hselect : ∃ set, round.select = .ready set ∧
            cfg.fd ∈ selected (watched cfg d.bridge.server) set := by
          rw [Bridge.readsDevice] at hreads
          cases hselect : round.select with
          | failed errno =>
              rw [hselect] at hreads
              cases hreads
          | ready set =>
              rw [hselect] at hreads
              exact ⟨set, rfl, of_decide_eq_true hreads⟩
        obtain ⟨set, hready, hfd⟩ := hselect
        have hquiet : ¬ d.bridge.Accepts cfg round.toRound := by
          rw [Bridge.Accepts, hready]
          exact fun haccepts => haccepts.1 hfd
        exact ⟨fun h => ⟨hset, ⟨set, hready⟩, fun _ => h.1, fun _ => h.2,
          fun haccepts => absurd haccepts hquiet⟩, fun h => ⟨h.sends hreads, h.scale hreads⟩⟩
    | false =>
        rw [if_neg Bool.false_ne_true]
        have hbridge := silent_serving_iff hserving.2 hreads
        have hquiet : ¬ d.bridge.readsDevice cfg round.toRound = true := by
          rw [hreads]
          exact Bool.false_ne_true
        constructor
        · intro h
          obtain ⟨hselects, haccepts⟩ := hbridge.mp h.2
          exact ⟨hset, hselects, fun hyes => absurd hyes hquiet, fun hyes => absurd hyes hquiet,
            haccepts⟩
        · exact fun h => ⟨hserving.1, hbridge.mpr ⟨h.selects, h.accepts⟩⟩
  · rw [if_neg hset]
    exact iff_of_false (fun h => by cases h.2) fun h => hset h.descriptors

/-- For every sequence of iterations: the daemon is in its loop after them if and
only if it survives each of them where it stands. -/
theorem serves_iff (cfg : Config) (push : Rat → Except Fault (List (List Char)))
    (rounds : List LiveRound) :
    (∃ d, Steps (Live.Iterates cfg push) Live.start rounds d ∧ d.Serving) ↔
      ∀ before round after d, rounds = before ++ round :: after →
        Steps (Live.Iterates cfg push) Live.start before d → d.Serving →
        d.Survives cfg push round :=
  Steps.alive_iff (fun _ round hserving => Live.iterate_serving_iff round hserving) ⟨rfl, rfl⟩
    rounds

/-! ## The bridge in it -/

/-- Only the device branch touches the receiver of the scale. -/
theorem iterate_starfrit {round : Round} {b : Bridge} (h : b.readsDevice cfg round = false) :
    (b.iterate cfg round).1.starfrit = b.starfrit := by
  rw [Bridge.readsDevice] at h
  rw [Bridge.iterate]
  cases hselect : round.select with
  | failed errno =>
      dsimp only
      split <;> rfl
  | ready set =>
      rw [hselect] at h
      have hsilent : cfg.fd ∉ selected (watched cfg b.server) set := of_decide_eq_false h
      dsimp only
      rw [if_neg hsilent]
      split
      · rw [Bridge.acceptBranch]
        split
        · rfl
        · split <;> rfl
      · rfl

/-- What it has processed is kept. -/
theorem irBranch_grows (cfg : Config) (c : ReadResult) (b : Bridge) :
    ∃ new, (b.irBranch cfg c).1.starfrit.trace = b.starfrit.trace ++ new := by
  rw [Bridge.irBranch]
  split
  · cases hread : starfritRead cfg.dataModel cfg.clock c (b.decoder, b.starfrit) with
    | error fault => exact ⟨[], (List.append_nil _).symm⟩
    | ok out =>
        have hwhole := (Client.starfritRead_ok_iff cfg.dataModel cfg.clock c _ _).mp ⟨out, hread⟩
        rw [starfritRead_eq_run _ _ _ _ hwhole] at hread
        obtain rfl := Except.ok.inj hread
        exact grows_foldl cfg.clock b.starfrit _
  · exact ⟨[], (List.append_nil _).symm⟩

theorem iterate_grows (cfg : Config) (round : Round) (b : Bridge) :
    ∃ new, (b.iterate cfg.inInt round).1.starfrit.trace = b.starfrit.trace ++ new := by
  cases hreads : b.readsDevice cfg round with
  | true =>
      rw [iterate_of_readsDevice hreads]
      exact irBranch_grows cfg.inInt round.irRead b
  | false =>
      rw [iterate_inInt hreads, iterate_starfrit hreads]
      exact ⟨[], (List.append_nil _).symm⟩

/-- An iteration that leaves the daemon in its loop is one of the bridge, and runs
what the bridge pushes. -/
theorem Live.iterate_bridge {round : LiveRound} {d : Live} (hserving : d.Serving)
    (hnext : (d.iterate cfg push round).1.Serving) :
    d.bridge.iterate cfg.inInt round.toRound =
        ((d.iterate cfg push round).1.bridge, (d.iterate cfg push round).2) ∧
      runPushes push d.run (d.bridge.starfrit.newPushes
        (d.iterate cfg push round).1.bridge.starfrit) =
          .ok (d.iterate cfg push round).1.run := by
  have hset := ((Live.iterate_serving_iff round hserving).mp hnext).descriptors
  rw [Live.iterate, if_pos hset] at hnext ⊢
  cases hreads : d.bridge.readsDevice cfg round.toRound with
  | true =>
      rw [hreads, if_pos rfl] at hnext
      rw [if_pos rfl, iterate_of_readsDevice hreads]
      exact irBranch_bridge round.irRead hserving hnext
  | false =>
      rw [if_neg Bool.false_ne_true, iterate_inInt hreads]
      refine ⟨rfl, ?_⟩
      rw [iterate_starfrit hreads, Starfrit.newPushes_self]
      rfl

/-- A run that ends in the loop is a run of the bridge, and what was run are the
pushes of the bridge. -/
theorem Live.run_bridge {trace : List (List Event)} {d : Live}
    (hrun : Steps (Live.Step cfg push) Live.start trace d) (hserving : d.Serving) :
    Steps (Bridge.Step cfg.inInt) Bridge.start trace d.bridge ∧
      runPushes push [] d.bridge.starfrit.pushes = .ok d.run := by
  induction hrun with
  | refl => exact ⟨.refl, rfl⟩
  | @snoc trace d d' events _ hlast ih =>
      obtain ⟨⟨hbefore, round, hround⟩, hadmits⟩ := hlast
      obtain ⟨hbridge, hpushes⟩ := ih hbefore
      have hnext : (d.iterate cfg push round).1.Serving := by rw [hround]; exact hserving
      obtain ⟨hiterate, hmore⟩ := Live.iterate_bridge hbefore hnext
      rw [hround] at hiterate hmore
      refine ⟨hbridge.snoc ⟨⟨hbefore.2, round.toRound, hiterate⟩, hadmits⟩, ?_⟩
      have hgrows := iterate_grows cfg round.toRound d.bridge
      rw [hiterate] at hgrows
      rw [Starfrit.pushes_of_trace hgrows, runPushes_append, hpushes, ok_bind, hmore]

end Iteration

end IrBridge.Daemon
