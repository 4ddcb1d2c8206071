/-
  Daemon/CommandPath.lean --- what is typed at one Linux client, at another.

  A Linux client sends the frames of the commands that are typed, and its bridge
  puts them on the air.  Lamps hear them, and so does the device of this bridge:
  the daemon measures them and sends them on, and a Linux client among its clients
  prints what it makes of them.  The two encodings do not get in each other's way:
  a lamp is switched by the commands for lamps alone, and the figure alone is
  measured and printed.
-/
import IrBridge.Client.LinuxLoop
import IrBridge.Daemon.FigurePath

set_option autoImplicit false

namespace IrBridge.Daemon

open IrBridge.Foundation
open IrBridge.Codec
open IrBridge.Platform
open IrBridge.Scale
open IrBridge.Client

/-- What was received of a frame, with durations off by at most `J`, and the
silence behind it. -/
structure HeardFrame (J : Nat) (frame : List Byte) (air : List LircT × Nat) : Prop where
  jittered : List.Forall₂ (Jitters J) (playback (wordsOf frame)) air.1
  silence : unkn0TS < air.2 ∧ air.2 < 2 ^ 24

/-- The words of it. -/
def airWords (air : List LircT × Nat) : List LircT := air.1 ++ [space air.2]

/-- The code that a lamp takes of a command: that of the command, or zeros. -/
def lampTakes (command : Command) : CString :=
  CString.ofBits (command.sender.heardByNec command.string)

/-- The frame that a receiver of the scale takes of it. -/
def scaleTakes (command : Command) : CString :=
  CString.ofBits (command.sender.heardByUnkn0 command.string)

/-- Commands on the air are emissions. -/
theorem emissions_of_commands {J : Nat} {commands : List Command}
    {air : List (List LircT × Nat)}
    (hair : List.Forall₂ (HeardFrame J) (commands.map Command.frame) air) :
    ∃ es : List Emission, (∀ e ∈ es, e.Heard J) ∧ onAir es = air.flatMap airWords ∧
      es.map (fun e => (e.sender, e.string)) =
        commands.map fun command => (command.sender, command.string) := by
  induction commands generalizing air with
  | nil =>
      cases hair
      exact ⟨[], by simp, rfl, rfl⟩
  | cons command commands ih =>
      obtain ⟨heard, rest, hfirst, hrest, rfl⟩ := List.forall₂_cons_left_iff.mp hair
      obtain ⟨es, hes, hwords, hsenders⟩ := ih hrest
      have hstrlen : command.string.strlen ≠ 0 := by cases command <;> decide
      have hjittered := hfirst.jittered
      rw [Command.frame, wordsOf_bytesOf] at hjittered
      refine ⟨⟨command.sender, command.string, heard.1, heard.2⟩ :: es, ?_, ?_, ?_⟩
      · intro e he
        rcases List.mem_cons.mp he with rfl | he
        · exact ⟨hstrlen, hjittered, hfirst.silence⟩
        · exact hes e he
      · rw [List.flatMap_cons, ← hwords]
        rfl
      · rw [List.map_cons, hsenders]
        rfl

/-- Each decoder, between two frames, takes one frame for each command. -/
theorem frames_of_commands {J : Nat} (hJ : J ≤ 120) {commands : List Command}
    {air : List (List LircT × Nat)}
    (hair : List.Forall₂ (HeardFrame J) (commands.map Command.frame) air)
    {st : DecodeState} (hst : Holds st []) :
    (nec.wordMachine.run st (air.flatMap airWords)).2 = commands.map lampTakes ∧
      (unkn0.wordMachine.run st (air.flatMap airWords)).2 = commands.map scaleTakes := by
  obtain ⟨es, hes, hwords, hsenders⟩ := emissions_of_commands hair
  have hboth : ∀ (heard : Sender → CString → List Bool),
      (∀ command : Command, (heard command.sender command.string).length ≤ capacity) →
      (es.map fun e => CString.ofBits ((heard e.sender e.string).take capacity)) =
        commands.map fun command => CString.ofBits (heard command.sender command.string) := by
    intro heard hfits
    have hmap := congrArg
      (List.map fun p => CString.ofBits ((heard p.1 p.2).take capacity)) hsenders
    rw [List.map_map, List.map_map] at hmap
    refine hmap.trans (List.map_congr_left fun command _ => ?_)
    rw [Function.comp, List.take_of_length_le (hfits command)]
  rw [← hwords]
  refine ⟨?_, ?_⟩
  · rw [nec_hears hJ hst hes]
    exact hboth Sender.heardByNec fun command => by cases command <;> decide
  · rw [unkn0_hears (by omega) hst hes]
    exact hboth Sender.heardByUnkn0 fun command => by cases command <;> decide

/-- What the daemon makes of a command: the figure alone is a measurement. -/
def measuredOf (command : Command) : Verdict :=
  if command = .figure then .accepted (receivedFigure 883#32) else .other

theorem starfritVerdict_scaleTakes (command : Command) :
    starfritVerdict (scaleTakes command) = measuredOf command := by
  cases command with
  | lightOn => decide +kernel
  | lightOff => decide +kernel
  | figure => exact (starfritVerdict_eq 883#32).trans (if_neg (by decide))

/-- A Linux client prints the figure alone. -/
theorem printedWeight_scaleTakes (command : Command) :
    printedWeight (scaleTakes command) =
      if command = .figure then some (883 / 10) else none := by
  have hremote : ∀ command : Command, command ≠ .figure →
      figureVerdict (scaleTakes command) = .other := by
    intro command hne
    cases command with
    | lightOn => decide +kernel
    | lightOff => decide +kernel
    | figure => exact absurd rfl hne
  rw [printedWeight]
  by_cases hfigure : command = .figure
  · have hverdict : figureVerdict (scaleTakes .figure) = .accepted (receivedFigure 883#32) :=
      (figureVerdict_eq 883#32).trans (if_neg (by decide))
    rw [if_pos hfigure, hfigure, hverdict]
    decide +kernel
  · rw [if_neg hfigure, hremote command hfigure]
    rfl

/-- It prints the weight once for each of them. -/
theorem printed_commands (commands : List Command) :
    (commands.map scaleTakes).filterMap printedWeight =
      List.replicate (commands.count .figure) (883 / 10) := by
  induction commands with
  | nil => rfl
  | cons command commands ih =>
      have hweight := printedWeight_scaleTakes command
      rw [List.map_cons, List.count_cons]
      by_cases hfigure : command = .figure
      · rw [if_pos hfigure] at hweight
        rw [List.filterMap_cons_some hweight, ih, if_pos (by simp [hfigure]),
          List.replicate_succ]
      · rw [if_neg hfigure] at hweight
        rw [List.filterMap_cons_none hweight, ih, if_neg (by simp [hfigure]), Nat.add_zero]

/-- Whatever is typed at a Linux client, whatever else the daemon of this bridge
does meanwhile, and however the reads of the device and the blocks of the
connection cut the stream between words: a lamp that is idle takes one code for each
command, which is that of the command if it is one for lamps; the daemon, with an
empty decoder, measures 88.3 kg once for each figure and nothing else; and a Linux
client that stays connected and does not crash prints that weight as often. -/
theorem commands_cross {cfg : Config} (hstarfrit : cfg.starfrit = true) {joined now : Bridge}
    {before during : List (List Event)}
    (hbefore : Steps (Bridge.Step cfg) Bridge.start before joined)
    (hduring : Steps (Bridge.Step cfg) joined during now) (hserving : now.phase = .serving)
    (hempty : joined.decoder.idx = 0) {J : Nat} (hJ : J ≤ 120) {dm dm' : DataModel}
    {typed rounds : List LinuxRound} {sender receiver : LinuxClient}
    (hsends : Steps (LinuxClient.Iterates dm) LinuxClient.start typed sender)
    {air : List (List LircT × Nat)} (hair : List.Forall₂ (HeardFrame J) sender.sent air)
    (hheard : (during.flatten.filterMap Event.irBlock).flatten = bytesOf (air.flatMap airWords))
    {csock : Int} (hjoined : csock ∈ joined.server.table)
    (hstays : .closed csock ∉ during.flatten)
    (hreceives : Steps (LinuxClient.Iterates dm') LinuxClient.start rounds receiver)
    (hsafe : ∀ fault, receiver.phase ≠ .crashed fault)
    (hdelivered : ((rounds.filterMap LinuxRound.block).map Recv.bytes).flatten =
      (during.flatten.filterMap (Event.sentTo csock)).flatten)
    {lamp : DecodeState} (hlamp : Reachable nec lamp) (hidle : lamp.idx = 0) :
    Takes nec lamp (air.flatMap airWords) ((typed.filterMap LinuxRound.command).map lampTakes) ∧
      (∃ new, now.starfrit.trace = joined.starfrit.trace ++ new ∧
        new.map (fun p => (p.frame, p.verdict)) = (typed.filterMap LinuxRound.command).map
          fun command => (scaleTakes command, measuredOf command)) ∧
      receiver.printed =
        List.replicate ((typed.filterMap LinuxRound.command).count .figure) (883 / 10) := by
  obtain ⟨hgap, hsent, new, htrace, hmeasured⟩ :=
    words_cross hstarfrit hbefore hduring hserving hempty hheard hjoined hstays
  rw [(linux_run dm hsends).sent_eq] at hair
  have hreceiver := linux_run dm' hreceives
  -- The client reads the words that are on the air.
  have hwords : recvWords (rounds.filterMap LinuxRound.block) = air.flatMap airWords := by
    have hwhole : ∀ block ∈ (rounds.filterMap LinuxRound.block).map Recv.bytes,
        4 ∣ block.length := List.forall_mem_map.mpr (hreceiver.whole hsafe)
    rw [hsent] at hdelivered
    rw [recvWords, ← wordsOf_bytesOf (air.flatMap airWords), ← hdelivered,
      ← flatMap_wordsOf hwhole, List.flatMap_map]
  refine ⟨?_, ⟨new, htrace, ?_⟩, ?_⟩
  · rw [← (frames_of_commands hJ hair (holds_nil_of_reachable hlamp hidle)).1]
    exact ⟨_, receiveFrames_eq_run nec lamp _⟩
  · rw [hmeasured, (frames_of_commands hJ hair hgap).2, List.map_map]
    apply List.map_congr_left
    intro command _
    rw [Function.comp, starfritVerdict_scaleTakes]
  · rw [(hreceiver.printing hsafe).printed_eq, hwords,
      (frames_of_commands hJ hair holds_start).2, printed_commands]

/-- A line is typed. -/
def typing (line : List Char) : LinuxRound := ⟨.ready true false, line, false, none⟩

/-- A command as it is played back, and a silence. -/
def playedCommand (command : Command) : List LircT × Nat :=
  (playback (command.sender.wave.words command.string.chars), 77000)

theorem HeardFrame.played (command : Command) :
    HeardFrame 0 command.frame (playedCommand command) := by
  have hsilence : unkn0TS < 77000 ∧ 77000 < 2 ^ 24 := by decide
  refine ⟨?_, hsilence⟩
  rw [Command.frame, wordsOf_bytesOf, playedCommand, List.forall₂_same]
  exact fun w _ => ⟨rfl, Nat.le_refl _, Nat.le_refl _⟩

/-- A lamp is switched on, and a figure is sent. -/
def commandsHeard : List (List LircT × Nat) := [playedCommand .lightOn, playedCommand .figure]

/-- The device says them. -/
def deviceSaysCommands : Round where
  irRead := .got (bytesOf (commandsHeard.flatMap airWords)) (by decide +kernel)
  accept := -1
  recv := fun _ => .failed
  select := .ready (· = scaleBridge.fd)

/-- A client receives them. -/
def receivingCommands : LinuxRound where
  select := .ready false true
  typed := []
  broken := false
  received := some ⟨bytesOf (commandsHeard.flatMap airWords), by decide +kernel,
    by decide +kernel⟩

/-- `1` and then a line that ends in `3` are typed: a lamp is switched on, and a
client on socket 5 prints 88.3. -/
theorem commands_cross_two :
    ∃ (joined now : Bridge) (receiver : LinuxClient), now.phase = .serving ∧
      Takes nec DecodeState.start (commandsHeard.flatMap airWords)
        [Command.lightOn.string, zeros 39] ∧
      (∃ new, now.starfrit.trace = joined.starfrit.trace ++ new ∧
        new.map (fun p => (p.frame, p.verdict)) =
          [(scaleTakes .lightOn, .other), (figureBits 883#32, .accepted (receivedFigure 883#32))]) ∧
      receiver.printed = [883 / 10] := by
  obtain ⟨sender, hsends, _⟩ := (linux_looping_iff .lp64 [typing ['1'], typing ['o', 'n', '3']]).mpr
    (by
      intro round hround
      rcases List.mem_pair.mp hround with rfl | rfl
      · exact ⟨'1', rfl, by decide, fun _ => rfl⟩
      · exact ⟨'3', rfl, by decide, fun _ => rfl⟩)
  obtain ⟨receiver, hreceives, hlooping⟩ := (linux_looping_iff .lp64 [receivingCommands]).mpr
    (by
      intro round hround
      rw [List.mem_singleton.mp hround]
      exact ⟨_, rfl, by rw [length_bytesOf]; exact Nat.dvd_mul_right ..⟩)
  have hair : List.Forall₂ (HeardFrame 0) sender.sent commandsHeard := by
    rw [(linux_run .lp64 hsends).sent_eq]
    exact .cons (.played .lightOn) (.cons (.played .figure) .nil)
  obtain ⟨joined, now, hbefore, hduring, hserving, hempty, hjoined, hheard⟩ :=
    connected_run (by decide +kernel : bytesOf (commandsHeard.flatMap airWords) ≠ [])
      (by decide +kernel :
        (Bridge.play scaleBridge [newConnection 5, deviceSaysCommands]).map _ = _)
  obtain ⟨hlamp, hmeasured, hprinted⟩ := commands_cross rfl hbefore hduring hserving hempty
    (by decide) hsends hair hheard hjoined (by simp) hreceives
    (fun fault hcrash => by rw [hlooping] at hcrash; cases hcrash) rfl .start rfl
  exact ⟨joined, now, receiver, hserving, hlamp, hmeasured, hprinted⟩

end IrBridge.Daemon
