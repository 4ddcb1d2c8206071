/-
  Daemon/FirstServer.lean --- `server/main.c`, from which the daemon was made.

  The first server is a program of the terminal: its loop waits for the standard
  input too, and ends when a line comes from there.  An error of `select`, be it
  an interrupt, ends it on the spot.  Between these ends its loop is that of the
  daemon without the scale, and `server.c` is the same but for its messages.

  `first_server_traces` says that the two do the same things in the same orders:
  a line on the standard input of the one is an interrupt of the other.
-/
import IrBridge.Daemon.Service

set_option autoImplicit false

namespace IrBridge.Daemon

open IrBridge.Foundation
open IrBridge.Platform

/-! ## The loop -/

/-- The globals of the first server, and where it is; `exit(errno)` ends it like
a `return`. -/
structure FirstServer where
  server : Server
  phase : Phase

namespace FirstServer

/-- The first server when it enters the loop. -/
def start : FirstServer := ⟨Server.start, .serving⟩

/-- `STDIN_FILENO`. -/
def stdinFileno : Int := 0

/-- The set handed to `select`. -/
def watched (cfg : Config) (server : Server) : List Int :=
  stdinFileno :: Daemon.watched cfg server

/-- `add_client`. -/
def acceptBranch (csock : Int) (s : FirstServer) : FirstServer × List Event :=
  if csock = -1 then (s, [.acceptFailed])
  else
    match s.server.addClient csock with
    | .ok server => ({ s with server := server }, [.accepted csock])
    | .error fault => ({ s with phase := .crashed fault }, [.accepted csock])

/-- One iteration of the loop; on the way out, what follows it.  Of `cfg` only
the two descriptors count. -/
def iterate (cfg : Config) (round : Round) (s : FirstServer) : FirstServer × List Event :=
  match round.select with
  | .failed errno => ({ s with phase := .returned errno }, [])
  | .ready set =>
      let rdfs := selected (watched cfg s.server) set
      if stdinFileno ∈ rdfs then
        ({ s with phase := .left }, .irClosed :: s.server.clearClients ++ [.serverClosed])
      else if cfg.fd ∈ rdfs then
        (s, .irRead round.irRead.bytes ::
          if round.irRead.result > 0 then
            s.server.writeToallclients round.irRead.bytes else [])
      else if cfg.sock ∈ rdfs then s.acceptBranch round.accept
      else
        let pass := clientPass rdfs round.recv 0 s.server
        ({ s with server := pass.1 }, pass.2)

/-- An iteration, under the daemon's assumption on `accept`. -/
def Step (cfg : Config) (s : FirstServer) (events : List Event) (s' : FirstServer) : Prop :=
  s.phase = .serving ∧ (∃ round, s.iterate cfg round = (s', events)) ∧
    ∀ csock ∈ events.filterMap Event.opened,
      csock ∉ s.server.table ∧ s.server.count < maxClients

end FirstServer

/-! ## The same descriptors -/

/-- A pass depends on the set only as a set. -/
theorem clientPass_congr {rdfs rdfs' : List Int} (h : ∀ d, d ∈ rdfs ↔ d ∈ rdfs')
    (recv : Int → ReadResult) (idx : Nat) (server : Server) :
    clientPass rdfs recv idx server = clientPass rdfs' recv idx server := by
  fun_induction clientPass rdfs recv idx server with
  | case1 idx server hidx csocket hneg ih =>
      rw [ih]
      conv_rhs => rw [clientPass]
      rw [if_pos hidx, if_pos hneg]
  | case2 idx server hidx csocket hneg hunset ih =>
      rw [ih]
      conv_rhs => rw [clientPass]
      rw [if_pos hidx, if_neg hneg, if_pos fun hmem => hunset ((h _).mpr hmem)]
  | case3 idx server hidx csocket hneg hset hzero rest ih =>
      conv_rhs => rw [clientPass]
      rw [if_pos hidx, if_neg hneg, if_neg fun hunset => hset fun hmem => hunset ((h _).mp hmem),
        if_pos hzero, ← ih]
  | case4 idx server hidx csocket hneg hset hsome =>
      conv_rhs => rw [clientPass]
      rw [if_pos hidx, if_neg hneg, if_neg fun hunset => hset fun hmem => hunset ((h _).mp hmem),
        if_neg hsome]
  | case5 idx server hidx =>
      conv_rhs => rw [clientPass]
      rw [if_neg hidx]

/-- While the standard input is silent, it makes no difference that it is waited
for. -/
theorem mem_selected_silent {cfg : Config} {server : Server} {set : Int → Bool}
    (hsilent : FirstServer.stdinFileno ∉ selected (FirstServer.watched cfg server) set)
    (d : Int) :
    d ∈ selected (FirstServer.watched cfg server) set ↔ d ∈ selected (watched cfg server) set := by
  rw [mem_selected] at hsilent ⊢
  rw [mem_selected, FirstServer.watched, List.mem_cons]
  constructor
  · rintro ⟨rfl | hmem, hset⟩
    · exact absurd ⟨List.mem_cons_self, hset⟩ hsilent
    · exact ⟨hmem, hset⟩
  · rintro ⟨hmem, hset⟩
    exact ⟨.inr hmem, hset⟩

/-- The daemon has the clients of the first server, and is in its loop when that
one is. -/
def Matches (s : FirstServer) (b : Bridge) : Prop :=
  b.server = s.server ∧ (s.phase = .serving ↔ b.phase = .serving)

theorem Matches.of_not_serving {s : FirstServer} {b : Bridge} (hserver : b.server = s.server)
    (hs : s.phase ≠ .serving) (hb : b.phase ≠ .serving) : Matches s b :=
  ⟨hserver, iff_of_false hs hb⟩

theorem acceptBranch_matches (csock : Int) {s : FirstServer} {b : Bridge}
    (h : Matches s b) :
    (b.acceptBranch csock).2 = (s.acceptBranch csock).2 ∧
      Matches (s.acceptBranch csock).1 (b.acceptBranch csock).1 := by
  rw [Bridge.acceptBranch, FirstServer.acceptBranch]
  split
  · exact ⟨rfl, h⟩
  · rw [h.1]
    cases s.server.addClient csock with
    | ok server => exact ⟨rfl, rfl, h.2⟩
    | error fault =>
        exact ⟨rfl, .of_not_serving rfl Phase.noConfusion Phase.noConfusion⟩

/-- With the standard input silent, an iteration of the one is an iteration of
the other. -/
theorem iterate_silent {cfg : Config} (hplain : cfg.starfrit = false) {round : Round}
    {set : Int → Bool} (hselect : round.select = .ready set) {s : FirstServer} {b : Bridge}
    (h : Matches s b)
    (hsilent : FirstServer.stdinFileno ∉ selected (FirstServer.watched cfg s.server) set) :
    (b.iterate cfg round).2 = (s.iterate cfg round).2 ∧
      Matches (s.iterate cfg round).1 (b.iterate cfg round).1 := by
  have hsame := mem_selected_silent hsilent
  rw [Bridge.iterate, FirstServer.iterate, hselect]
  dsimp only
  rw [if_neg hsilent, h.1]
  by_cases hfd : cfg.fd ∈ selected (watched cfg s.server) set
  · rw [if_pos hfd, if_pos ((hsame _).mpr hfd), Bridge.irBranch, hplain, h.1]
    exact ⟨rfl, h⟩
  · rw [if_neg hfd, if_neg fun hmem => hfd ((hsame _).mp hmem)]
    by_cases hsock : cfg.sock ∈ selected (watched cfg s.server) set
    · rw [if_pos hsock, if_pos ((hsame _).mpr hsock)]
      exact acceptBranch_matches round.accept h
    · rw [if_neg hsock, if_neg fun hmem => hsock ((hsame _).mp hmem),
        clientPass_congr hsame]
      exact ⟨rfl, rfl, h.2⟩

/-- The daemon does not wait for the standard input. -/
theorem selected_silent {cfg : Config} (hfd : 0 < cfg.fd) (hsock : 0 < cfg.sock)
    (server : Server) (set : Int → Bool) :
    selected (watched cfg server) (fun d => set d && d ≠ FirstServer.stdinFileno) =
      selected (watched cfg server) set := by
  have hpos : ∀ d ∈ watched cfg server, 0 < d := by
    intro d hd
    rcases List.mem_cons.mp hd with rfl | hd
    · exact hfd
    · rcases List.mem_cons.mp hd with rfl | hd
      · exact hsock
      · exact of_decide_eq_true (List.mem_filter.mp hd).2
  refine List.filter_congr fun d hd => ?_
  have hne : d ≠ FirstServer.stdinFileno := (hpos d hd).ne'
  simp [hne]

/-! ## The two simulate each other -/

/-- The daemon does what the first server does. -/
theorem daemon_simulates {cfg : Config} (hplain : cfg.starfrit = false) {s s' : FirstServer}
    {events : List Event} {b : Bridge} (h : Matches s b)
    (hstep : FirstServer.Step cfg s events s') :
    ∃ b', Bridge.Step cfg b events b' ∧ Matches s' b' := by
  obtain ⟨hserving, ⟨round, hround⟩, hadmits⟩ := hstep
  have hserving' := h.2.mp hserving
  have hadmits' : b.Admits events := by
    rw [← h.1] at hadmits
    exact hadmits
  have hmain : ∃ round' b', b.iterate cfg round' = (b', events) ∧ Matches s' b' := by
    cases hselect : round.select with
    | failed errno =>
        -- The daemon survives no error either, but for an interrupt it leaves the loop.
        rw [FirstServer.iterate, hselect] at hround
        obtain ⟨rfl, rfl⟩ := Prod.mk.inj hround
        refine ⟨{ round with select := .failed (eintr + 1) }, _, rfl, ?_⟩
        exact .of_not_serving h.1 Phase.noConfusion Phase.noConfusion
    | ready set =>
        by_cases hstdin :
            FirstServer.stdinFileno ∈ selected (FirstServer.watched cfg s.server) set
        · rw [FirstServer.iterate, hselect] at hround
          dsimp only at hround
          rw [if_pos hstdin, ← h.1] at hround
          obtain ⟨rfl, rfl⟩ := Prod.mk.inj hround
          refine ⟨{ round with select := .failed eintr }, _, rfl, ?_⟩
          exact .of_not_serving rfl Phase.noConfusion Phase.noConfusion
        · have hsilent := iterate_silent hplain hselect h hstdin
          rw [hround] at hsilent
          exact ⟨round, _, Prod.ext rfl hsilent.1, hsilent.2⟩
  obtain ⟨round', b', hround', hmatches⟩ := hmain
  exact ⟨b', ⟨⟨hserving', round', hround'⟩, hadmits'⟩, hmatches⟩

/-- And the other way. -/
theorem firstServer_simulates {cfg : Config} (hplain : cfg.starfrit = false)
    (hfd : 0 < cfg.fd) (hsock : 0 < cfg.sock) {s : FirstServer} {events : List Event}
    {b b' : Bridge} (h : Matches s b) (hstep : Bridge.Step cfg b events b') :
    ∃ s', FirstServer.Step cfg s events s' ∧ Matches s' b' := by
  obtain ⟨⟨hserving, round, hround⟩, hadmits⟩ := hstep
  have hserving' := h.2.mpr hserving
  have hadmits' : ∀ csock ∈ events.filterMap Event.opened,
      csock ∉ s.server.table ∧ s.server.count < maxClients := by
    rw [← h.1]
    exact hadmits
  have hmain : ∃ round' s', s.iterate cfg round' = (s', events) ∧ Matches s' b' := by
    cases hselect : round.select with
    | failed errno =>
        rw [Bridge.iterate, hselect] at hround
        dsimp only at hround
        by_cases herrno : errno = eintr
        · rw [if_pos herrno, h.1] at hround
          obtain ⟨rfl, rfl⟩ := Prod.mk.inj hround
          have hstdin : FirstServer.stdinFileno ∈
              selected (FirstServer.watched cfg s.server) (· = FirstServer.stdinFileno) :=
            mem_selected.mpr ⟨List.mem_cons_self, decide_eq_true rfl⟩
          refine ⟨{ round with select := .ready (· = FirstServer.stdinFileno) },
            { s with phase := .left }, ?_,
            .of_not_serving rfl Phase.noConfusion Phase.noConfusion⟩
          rw [FirstServer.iterate]
          exact if_pos hstdin
        · rw [if_neg herrno] at hround
          obtain ⟨rfl, rfl⟩ := Prod.mk.inj hround
          refine ⟨{ round with select := .failed errno }, _, rfl, ?_⟩
          exact .of_not_serving h.1 Phase.noConfusion Phase.noConfusion
    | ready set =>
        let silent : Int → Bool := fun d => set d && d ≠ FirstServer.stdinFileno
        have hstdin : FirstServer.stdinFileno ∉
            selected (FirstServer.watched cfg s.server) silent := fun hmem => by
          simpa [silent] using (mem_selected.mp hmem).2
        have hsame : b.iterate cfg { round with select := .ready silent } = (b', events) := by
          rw [← hround, Bridge.iterate, Bridge.iterate, hselect]
          dsimp only
          rw [selected_silent hfd hsock]
        have hselect' : { round with select := .ready silent }.select = .ready silent := rfl
        have hsilent := iterate_silent hplain hselect' h hstdin
        rw [hsame] at hsilent
        exact ⟨_, _, Prod.ext rfl hsilent.1.symm, hsilent.2⟩
  obtain ⟨round', s', hround', hmatches⟩ := hmain
  exact ⟨s', ⟨hserving', ⟨round', hround'⟩, hadmits'⟩, hmatches⟩

/-- The first server and the daemon without the scale have the same runs. -/
theorem first_server_traces {cfg : Config} (hplain : cfg.starfrit = false)
    (hfd : 0 < cfg.fd) (hsock : 0 < cfg.sock) (trace : List (List Event)) (server : Server) :
    (∃ s, Steps (FirstServer.Step cfg) FirstServer.start trace s ∧ s.server = server) ↔
      ∃ b, Steps (Bridge.Step cfg) Bridge.start trace b ∧ b.server = server := by
  have hstart : Matches FirstServer.start Bridge.start := ⟨rfl, iff_of_true rfl rfl⟩
  constructor
  · rintro ⟨s, hrun, rfl⟩
    have hsteps : ∀ (s : FirstServer) events (s' : FirstServer) b, Matches s b →
        FirstServer.Step cfg s events s' → ∃ b', Bridge.Step cfg b events b' ∧ Matches s' b' :=
      fun _ _ _ _ h hstep => daemon_simulates hplain h hstep
    obtain ⟨b, hrun', hmatches⟩ := hrun.simulation hsteps hstart
    exact ⟨b, hrun', hmatches.1⟩
  · rintro ⟨b, hrun, rfl⟩
    have hsteps : ∀ (b : Bridge) events (b' : Bridge) s, Matches s b →
        Bridge.Step cfg b events b' → ∃ s', FirstServer.Step cfg s events s' ∧ Matches s' b' :=
      fun _ _ _ _ h hstep => firstServer_simulates hplain hfd hsock h hstep
    obtain ⟨s, hrun', hmatches⟩ := hrun.simulation hsteps hstart
    exact ⟨s, hrun', hmatches.1.symm⟩

/-- A connection, and a byte from the device. -/
theorem first_server_traces_device :
    ∃ s, Steps (FirstServer.Step plainBridge) FirstServer.start
      [[.accepted 5], [.irRead [1#8], .sent 5 [1#8]]] s ∧ s.server.table = [5] := by
  have hplay : (Bridge.play plainBridge [newConnection 5, deviceSpeaks]).map
      (fun now => (now.1, now.2.server.table)) =
      some ([[.accepted 5], [.irRead [1#8], .sent 5 [1#8]]], [5]) := by
    decide +kernel
  obtain ⟨⟨trace, b⟩, hrun, hnow⟩ := Option.map_eq_some_iff.mp hplay
  obtain ⟨rfl, htable⟩ := Prod.mk.inj hnow
  obtain ⟨s, hrun', hserver⟩ := (first_server_traces rfl (by decide) (by decide) _ _).mpr
    ⟨b, Bridge.steps_of_play hrun, rfl⟩
  exact ⟨s, hrun', hserver ▸ htable⟩

end IrBridge.Daemon
