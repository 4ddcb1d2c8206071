/-
  Daemon/LateJoiner.lean --- a client that connects in the middle of things.

  The daemon reads the device and sends what it read to every client in its
  table, and its own receiver for the scale decodes the same bytes.  A client
  connects at some time, perhaps while a frame is coming in, and begins with an
  empty decoder.  From then on it is sent every block the daemon reads, so that
  the two decoders read the same words; they differ at most in the frame that was
  coming in.

  The daemon that decodes and is still in its loop was given whole words by every
  read of the device.
-/
import IrBridge.Client.Safety
import IrBridge.Codec.Air
import IrBridge.Codec.Buffer
import IrBridge.Daemon.Bridge

set_option autoImplicit false

namespace IrBridge.Daemon

open IrBridge.Foundation
open IrBridge.Codec
open IrBridge.Platform
open IrBridge.Scale

/-! ## What the daemon decodes -/

/-- The words read from the device. -/
def heardWords (events : List Event) : List LircT :=
  (events.filterMap Event.irBlock).flatMap wordsOf

theorem heardWords_append (events more : List Event) :
    heardWords (events ++ more) = heardWords events ++ heardWords more := by
  rw [heardWords, List.filterMap_append, List.flatMap_append]
  rfl

/-- From `b` to `b'` the scale's receiver was given the words that were read, and
these were whole. -/
structure Decodes (cfg : Config) (b : Bridge) (events : List Event) (b' : Bridge) : Prop where
  whole : ∀ block ∈ events.filterMap Event.irBlock, 4 ∣ block.length
  decoder_eq : b'.decoder = (unkn0.wordMachine.run b.decoder (heardWords events)).1
  starfrit_eq : b'.starfrit = (unkn0.wordMachine.run b.decoder (heardWords events)).2.foldl
    (starfritFrame cfg.clock) b.starfrit

theorem Decodes.trans {cfg : Config} {b b' b'' : Bridge} {events more : List Event}
    (h : Decodes cfg b events b') (h' : Decodes cfg b' more b'') :
    Decodes cfg b (events ++ more) b'' where
  whole := by
    intro block hblock
    rw [List.filterMap_append, List.mem_append] at hblock
    exact hblock.elim (h.whole block) (h'.whole block)
  decoder_eq := by
    rw [h'.decoder_eq, h.decoder_eq, heardWords_append, Transducer.run_append]
  starfrit_eq := by
    rw [h'.starfrit_eq, h.decoder_eq, h.starfrit_eq, heardWords_append,
      Transducer.run_append, List.foldl_append]

/-- A read of whole words, or of none. -/
theorem starfritRead_eq_run (dm : DataModel) (clock : Nat → Int) {c : ReadResult}
    (st : DecodeState) (s : Starfrit) (hwhole : 0 ≤ c.result ∧ 4 ∣ c.result) :
    starfritRead dm clock c (st, s) =
      .ok ((unkn0.wordMachine.run st (wordsOf c.bytes)).1,
        (unkn0.wordMachine.run st (wordsOf c.bytes)).2.foldl (starfritFrame clock) s) := by
  cases c with
  | failed => exact absurd hwhole.1 (by decide)
  | got bytes hfits =>
      have hwords := length_wordsOf bytes
      rw [bufSize] at hfits
      change 0 ≤ (bytes.length : Int) ∧ (4 : Int) ∣ bytes.length at hwhole
      have hsize : toSize dm bytes.length = 4 * (wordsOf bytes).length := by
        rw [toSize_of_range dm (by omega) (by omega), Int.toNat_natCast]
        omega
      rw [starfritRead, starfritProcess, ReadResult.bytes, ReadResult.result, hsize,
        receiveLoop_eq_run]

theorem whole_of_result {c : ReadResult} (hwhole : 0 ≤ c.result ∧ 4 ∣ c.result) :
    4 ∣ c.bytes.length := by
  cases c with
  | failed => exact absurd hwhole.1 (by decide)
  | got bytes hfits => exact Int.natCast_dvd_natCast.mp hwhole.2

/-- A read of the device is a block unless it is empty. -/
theorem irBlock_cons_irRead (bytes : List Byte) {rest : List Event}
    (hrest : rest.filterMap Event.irBlock = []) :
    (Event.irRead bytes :: rest).filterMap Event.irBlock =
      if bytes = [] then [] else [bytes] := by
  by_cases hbytes : bytes = []
  · rw [if_pos hbytes, hbytes, List.filterMap_cons_none rfl, hrest]
  · rw [if_neg hbytes, List.filterMap_cons_some (Event.irBlock_irRead hbytes), hrest]

/-- The device branch, when the daemon survives it. -/
theorem irBranch_decodes {cfg : Config} (hstarfrit : cfg.starfrit = true)
    (c : ReadResult) {b : Bridge} (hserving : (b.irBranch cfg c).1.phase = .serving) :
    Decodes cfg b (b.irBranch cfg c).2 (b.irBranch cfg c).1 := by
  have hsent : (if c.result > 0 then b.server.writeToallclients c.bytes else
      []).filterMap Event.irBlock = [] := by
    split
    · rw [Server.writeToallclients_eq]
      exact filterMap_map_none (fun _ => rfl) _
    · rfl
  rw [Bridge.irBranch, if_pos hstarfrit] at hserving ⊢
  cases hread : starfritRead cfg.dataModel cfg.clock c (b.decoder, b.starfrit) with
  | error fault =>
      rw [hread] at hserving
      cases hserving
  | ok out =>
      have hwhole := (Client.starfritRead_ok_iff cfg.dataModel cfg.clock c b.decoder b.starfrit).mp
        ⟨out, hread⟩
      rw [starfritRead_eq_run _ _ _ _ hwhole] at hread
      obtain rfl := Except.ok.inj hread
      have hblocks := irBlock_cons_irRead c.bytes hsent
      have hheard : ((if c.bytes = [] then [] else [c.bytes]).flatMap wordsOf) =
          wordsOf c.bytes := by
        split
        · rename_i hempty
          rw [hempty]
          rfl
        · exact List.flatMap_singleton ..
      refine ⟨?_, ?_, ?_⟩
      · rw [hblocks]
        intro block hblock
        split at hblock
        · cases hblock
        · rw [List.mem_singleton.mp hblock]
          exact whole_of_result hwhole
      · rw [heardWords, hblocks, hheard]
      · rw [heardWords, hblocks, hheard]

/-- A branch that does not read the device. -/
theorem Decodes.of_unheard {cfg : Config} {b b' : Bridge} {events : List Event}
    (hevents : events.filterMap Event.irBlock = []) (hdecoder : b'.decoder = b.decoder)
    (hstarfrit : b'.starfrit = b.starfrit) : Decodes cfg b events b' := by
  have hheard : heardWords events = [] := by
    rw [heardWords, hevents]
    rfl
  refine ⟨?_, ?_, ?_⟩
  · rw [hevents]
    exact fun block hblock => absurd hblock List.not_mem_nil
  · rw [hheard]
    exact hdecoder
  · rw [hheard]
    exact hstarfrit

theorem acceptBranch_decodes (cfg : Config) (csock : Int) (b : Bridge) :
    Decodes cfg b (b.acceptBranch csock).2 (b.acceptBranch csock).1 := by
  rw [Bridge.acceptBranch]
  split
  · exact .of_unheard rfl rfl rfl
  · split
    · exact .of_unheard rfl rfl rfl
    · exact .of_unheard rfl rfl rfl

theorem irBlock_clientPass (rdfs : List Int) (recv : Int → ReadResult) (server : Server) :
    (clientPass rdfs recv 0 server).2.filterMap Event.irBlock = [] := by
  obtain ⟨gone, _, _, hevents⟩ := clientPass_spec rdfs recv 0 server
  have hgone : (goneEvents gone).filterMap Event.irBlock = [] :=
    filterMap_goneEvents (fun _ => ⟨rfl, rfl⟩) gone
  rcases hevents with hevents | ⟨csock, _, _, hevents⟩
  · rw [hevents, hgone]
  · rw [hevents, List.filterMap_append, hgone]
    rfl

/-- An iteration the daemon survives gives the receiver the words it read. -/
theorem iterate_decodes {cfg : Config} (hstarfrit : cfg.starfrit = true) (round : Round)
    {b : Bridge} (hserving : (b.iterate cfg round).1.phase = .serving) :
    Decodes cfg b (b.iterate cfg round).2 (b.iterate cfg round).1 := by
  rw [Bridge.iterate] at hserving ⊢
  generalize round.select = select at hserving ⊢
  cases select with
  | failed errno =>
      dsimp only at hserving
      split at hserving
      · cases hserving
      · cases hserving
  | ready set =>
      dsimp only at hserving ⊢
      generalize selected (watched cfg b.server) set = rdfs at hserving ⊢
      by_cases hfd : cfg.fd ∈ rdfs
      · rw [if_pos hfd] at hserving ⊢
        exact irBranch_decodes hstarfrit round.irRead hserving
      · rw [if_neg hfd] at hserving ⊢
        by_cases hsock : cfg.sock ∈ rdfs
        · rw [if_pos hsock]
          exact acceptBranch_decodes cfg round.accept b
        · rw [if_neg hsock]
          exact .of_unheard (irBlock_clientPass rdfs round.recv b.server) rfl rfl

/-- A run that ends in the loop gives the receiver all the words it read. -/
theorem run_decodes {cfg : Config} (hstarfrit : cfg.starfrit = true) {b b' : Bridge}
    {trace : List (List Event)} (hrun : Steps (Bridge.Step cfg) b trace b')
    (hserving : b'.phase = .serving) : Decodes cfg b trace.flatten b' := by
  induction hrun with
  | refl => exact .of_unheard rfl rfl rfl
  | snoc _ hlast ih =>
      obtain ⟨⟨hbefore, round, hround⟩, _⟩ := hlast
      have hstep : Decodes cfg _ (Bridge.iterate cfg round _).2 _ :=
        iterate_decodes hstarfrit round (by rw [hround]; exact hserving)
      rw [hround] at hstep
      rw [List.flatten_append, List.flatten_singleton]
      exact (ih hbefore).trans hstep

/-! ## What a client is sent -/

/-- A block that goes to a socket. -/
def blockFor (csock : Int) (sent : Int × List Byte) : Option (List Byte) :=
  if sent.1 = csock then some sent.2 else none

theorem blockFor_self (csock : Int) (block : List Byte) :
    blockFor csock (csock, block) = some block := if_pos rfl

theorem blockFor_ne {csock other : Int} (hne : other ≠ csock) (block : List Byte) :
    blockFor csock (other, block) = none := if_neg hne

/-- The block passed to `send` on a socket. -/
def Event.sentTo (csock : Int) (event : Event) : Option (List Byte) :=
  event.sentBlock.bind (blockFor csock)

/-- Of the copies for a table, one is for a socket of the table. -/
theorem filterMap_copies {table : List Int} (hnodup : table.Nodup) {csock : Int}
    (hmem : csock ∈ table) (block : List Byte) :
    (table.map fun other => (other, block)).filterMap (blockFor csock) = [block] := by
  induction table with
  | nil => cases hmem
  | cons other rest ih =>
      obtain ⟨hother, hrest⟩ := List.nodup_cons.mp hnodup
      rw [List.map_cons]
      by_cases heq : other = csock
      · subst heq
        have hothers : (rest.map fun another => (another, block)).filterMap
            (blockFor other) = [] := by
          rw [List.filterMap_map, List.filterMap_eq_nil_iff]
          intro another hanother
          have hne : another ≠ other := fun heq => hother (heq ▸ hanother)
          exact blockFor_ne hne block
        rw [List.filterMap_cons_some (blockFor_self other block), hothers]
      · rw [List.filterMap_cons_none (blockFor_ne heq block)]
        exact ih hrest ((List.mem_cons.mp hmem).resolve_left (Ne.symm heq))

/-- An iteration sends a client of the table every block it reads from the
device, once. -/
theorem Relays.sentTo_eq {table table' : List Int} {events : List Event}
    (h : Relays table events table') (hnodup : table.Nodup) {csock : Int}
    (hmem : csock ∈ table) :
    events.filterMap (Event.sentTo csock) = events.filterMap Event.irBlock := by
  have hcopies : events.filterMap (Event.sentTo csock) =
      (events.filterMap Event.sentBlock).filterMap (blockFor csock) := by
    rw [List.filterMap_filterMap]
    rfl
  rw [hcopies, h.sent_eq]
  generalize events.filterMap Event.irBlock = blocks
  induction blocks with
  | nil => rfl
  | cons block blocks ih =>
      rw [List.flatMap_cons, List.filterMap_append, filterMap_copies hnodup hmem, ih]
      rfl

/-- A socket that is not removed stays in the table. -/
theorem mem_alive {events : List Event} {csock : Int} (hstays : .closed csock ∉ events)
    {table : List Int} (hmem : csock ∈ table) : csock ∈ alive table events := by
  induction events generalizing table with
  | nil => exact hmem
  | cons event events ih =>
      rw [List.mem_cons, not_or] at hstays
      refine ih hstays.2 ?_
      cases event with
      | accepted other => exact List.mem_append_left _ hmem
      | closed other =>
          have hne : csock ≠ other := fun heq => hstays.1 (by rw [heq])
          exact (List.mem_erase_of_ne hne).mpr hmem
      | _ => exact hmem

/-- A client that stays is sent every block that is read while it is there. -/
theorem run_sentTo {table table' : List Int} {trace : List (List Event)}
    (hrun : Steps Relay.Next table trace table') (hnodup : table.Nodup) {csock : Int}
    (hmem : csock ∈ table) (hstays : .closed csock ∉ trace.flatten) :
    trace.flatten.filterMap (Event.sentTo csock) = trace.flatten.filterMap Event.irBlock ∧
      csock ∈ table' ∧ table'.Nodup := by
  induction hrun with
  | refl => exact ⟨rfl, hmem, hnodup⟩
  | @snoc trace now next events _ hlast ih =>
      rw [List.flatten_append, List.flatten_singleton] at hstays ⊢
      rw [List.mem_append, not_or] at hstays
      obtain ⟨hsent, hthere, hdistinct⟩ := ih hstays.1
      obtain ⟨_, hstep⟩ := hlast
      have hrelays := hstep.relays
      refine ⟨?_, ?_, hrelays.nodup hdistinct⟩
      · rw [List.filterMap_append, List.filterMap_append, hsent,
          hrelays.sentTo_eq hdistinct hthere]
      · rw [hrelays.table_eq]
        exact mem_alive hstays.2 hthere

/-! ## Joining -/

/-- A run from any state is a run of the relay. -/
theorem run_relays_from {cfg : Config} {b b' : Bridge} {trace : List (List Event)}
    (hrun : Steps (Bridge.Step cfg) b trace b') :
    Steps Relay.Next b.server.table trace b'.server.table := by
  have hsteps : ∀ (b : Bridge) events (next : Bridge) table,
      b.server.table = table → Bridge.Step cfg b events next →
      ∃ table', Relay.Next table events table' ∧ next.server.table = table' :=
    fun _ _ _ _ htable hstep => ⟨_, htable ▸ hstep.relays, rfl⟩
  obtain ⟨table, hrelay, rfl⟩ := hrun.simulation hsteps rfl
  exact hrelay

/-- A run that ends in the loop began there. -/
theorem serving_of_steps {cfg : Config} {b b' : Bridge} {trace : List (List Event)}
    (hrun : Steps (Bridge.Step cfg) b trace b') (hserving : b'.phase = .serving) :
    b.phase = .serving := by
  induction hrun with
  | refl => exact hserving
  | snoc _ hlast ih => exact ih hlast.1.1

theorem wordsOf_append : ∀ {bytes : List Byte}, 4 ∣ bytes.length → ∀ rest : List Byte,
    wordsOf (bytes ++ rest) = wordsOf bytes ++ wordsOf rest
  | [], _, _ => rfl
  | b0 :: b1 :: b2 :: b3 :: bytes, hwhole, rest => by
      have hrest : 4 ∣ bytes.length := by
        simp only [List.length_cons] at hwhole
        omega
      change _ :: wordsOf (bytes ++ rest) = _
      rw [wordsOf_append hrest rest]
      rfl
  | [_], hwhole, _ => by simp at hwhole
  | [_, _], hwhole, _ => by simp at hwhole
  | [_, _, _], hwhole, _ => by simp at hwhole

/-- Whole blocks can be put together. -/
theorem flatMap_wordsOf {blocks : List (List Byte)} (hwhole : ∀ block ∈ blocks, 4 ∣ block.length) :
    blocks.flatMap wordsOf = wordsOf blocks.flatten := by
  induction blocks with
  | nil => rfl
  | cons block blocks ih =>
      rw [List.flatMap_cons, List.flatten_cons,
        wordsOf_append (hwhole block List.mem_cons_self),
        ih fun other hother => hwhole other (List.mem_cons_of_mem block hother)]

theorem bytesOf_flatMap {β : Type} (words : β → List LircT) (blocks : List β) :
    (blocks.flatMap fun block => bytesOf (words block)) = bytesOf (blocks.flatMap words) := by
  induction blocks with
  | nil => rfl
  | cons block blocks ih =>
      rw [List.flatMap_cons, ih, List.flatMap_cons, bytesOf, bytesOf, bytesOf,
        List.flatMap_append]

/-- The decoder of a daemon that is in its loop holds the bits of a frame. -/
theorem holds_of_run {cfg : Config} (hstarfrit : cfg.starfrit = true) {b : Bridge}
    {trace : List (List Event)} (hrun : Steps (Bridge.Step cfg) Bridge.start trace b)
    (hserving : b.phase = .serving) : ∃ bits, Holds b.decoder bits := by
  have hdecodes := run_decodes hstarfrit hrun hserving
  rw [hdecodes.decoder_eq]
  exact ⟨_, (run_refines unkn0 holds_start (heardWords trace.flatten)).1⟩

/-- Two decoders that read the same words take the same frames, except for the
frame each was in. -/
theorem frames_resync (P : Protocol) {st st' : DecodeState} {bits bits' : List Bool}
    (h : Holds st bits) (h' : Holds st' bits') (ws : List LircT) :
    ∃ first first' common, (P.wordMachine.run st ws).2 = first ++ common ∧
      (P.wordMachine.run st' ws).2 = first' ++ common ∧
      first.length ≤ 1 ∧ first'.length ≤ 1 := by
  obtain ⟨first, first', common, hrun, hrun', hlen, hlen'⟩ :=
    Framing.run_resync capacity bits bits' (ws.map P.classify)
  refine ⟨first.map CString.ofBits, first'.map CString.ofBits, common.map CString.ofBits,
    ?_, ?_, ?_, ?_⟩
  · rw [(run_refines P h ws).2, hrun, List.map_append]
  · rw [(run_refines P h' ws).2, hrun', List.map_append]
  · rw [List.length_map]
    exact hlen
  · rw [List.length_map]
    exact hlen'

/-- Whenever a client joins, and for as long as it stays: of the bytes it is sent
some have been delivered, cut in any way into whole words.  The frames it has
taken of them are those the daemon's receiver took since, up to the frames that
are still on the way, but for at most one frame at the beginning on either side.
Once everything has been delivered, no frame is on the way. -/
theorem late_joiner {cfg : Config} (hstarfrit : cfg.starfrit = true) {joined now : Bridge}
    {before during : List (List Event)}
    (hbefore : Steps (Bridge.Step cfg) Bridge.start before joined)
    (hduring : Steps (Bridge.Step cfg) joined during now) (hserving : now.phase = .serving)
    {csock : Int} (hjoined : csock ∈ joined.server.table)
    (hstays : .closed csock ∉ during.flatten) (dm : DataModel)
    {blocks : List Client.JavaBlock}
    (hdelivered : (blocks.flatMap fun block => bytesOf block.words) <+:
      (during.flatten.filterMap (Event.sentTo csock)).flatten) :
    ∃ st shown new first first' common later,
      Client.figureBlocks dm (DecodeState.start, []) blocks = .ok (st, shown) ∧
      now.starfrit.trace = joined.starfrit.trace ++ new ∧
      new.map Processed.frame = first ++ common ++ later ∧
      shown.map Client.Displayed.frame = first' ++ common ∧
      first.length ≤ 1 ∧ first'.length ≤ 1 ∧
      ((blocks.flatMap fun block => bytesOf block.words) =
        (during.flatten.filterMap (Event.sentTo csock)).flatten → later = []) := by
  have hnodup := (relay_invariant (Bridge.run_relays hbefore)).nodup
  have hsent := (run_sentTo (run_relays_from hduring) hnodup hjoined hstays).1
  have hdecodes := run_decodes hstarfrit hduring hserving
  obtain ⟨bits, hbits⟩ := holds_of_run hstarfrit hbefore (serving_of_steps hduring hserving)
  -- The words delivered are the first of those the daemon's receiver was given.
  obtain ⟨ahead, hahead, hnone⟩ : ∃ ahead, heardWords during.flatten =
      blocks.flatMap Client.JavaBlock.words ++ ahead ∧
      ((blocks.flatMap fun block => bytesOf block.words) =
        (during.flatten.filterMap (Event.sentTo csock)).flatten → ahead = []) := by
    obtain ⟨rest, hrest⟩ := hdelivered
    refine ⟨wordsOf rest, ?_, fun hall => ?_⟩
    · rw [hsent, bytesOf_flatMap] at hrest
      rw [heardWords, flatMap_wordsOf hdecodes.whole, ← hrest,
        wordsOf_append (by rw [length_bytesOf]; exact Nat.dvd_mul_right ..), wordsOf_bytesOf]
    · rw [← hall] at hrest
      rw [List.append_right_eq_self.mp hrest]
      rfl
  have hclient := Client.figureBlocks_eq_run dm DecodeState.start [] blocks
  have hdaemon := hdecodes.starfrit_eq
  rw [hahead, Transducer.run_append] at hdaemon
  dsimp only at hdaemon
  have hlater : ahead = [] → (unkn0.wordMachine.run
      (unkn0.wordMachine.run joined.decoder (blocks.flatMap Client.JavaBlock.words)).1
      ahead).2 = [] := fun hempty => by rw [hempty]; rfl
  generalize (unkn0.wordMachine.run _ ahead).2 = later at hdaemon hlater
  obtain ⟨first, first', common, hrun, hrun', hlen, hlen'⟩ :=
    frames_resync unkn0 hbits holds_start (blocks.flatMap Client.JavaBlock.words)
  rw [hrun] at hdaemon
  obtain ⟨new, htrace, hframes, _⟩ := trace_foldl cfg.clock joined.starfrit
    (first ++ common ++ later)
  refine ⟨_, _, new, first, first', common, later, hclient, ?_, hframes, ?_, hlen, hlen',
    fun hall => hlater (hnone hall)⟩
  · rw [hdaemon]
    exact htrace
  · rw [Client.foldl_figureFrame, List.nil_append, List.map_map, hrun']
    exact List.map_id _

/-- A bridge with the scale. -/
def scaleBridge : Config := ⟨3, 4, true, .ilp32, fun _ => 0⟩

/-- The words of one bit on the air. -/
def frameOfOne : List LircT :=
  playback (unkn0Wave.words (CString.ofBits [true]).chars) ++ [space 77000]

/-- The device says one bit. -/
def deviceSaysBit : Round where
  irRead := .got (bytesOf frameOfOne) (by decide)
  accept := -1
  recv := fun _ => .failed
  select := .ready (· = scaleBridge.fd)

/-- Client 5 joins after the device has said a bit, and hears the next one. -/
theorem late_joiner_second :
    ∃ joined now : Bridge, now.phase = .serving ∧
      ∃ st shown new first first' common later,
        Client.figureBlocks .ilp32 (DecodeState.start, []) [⟨frameOfOne, by decide⟩] =
          .ok (st, shown) ∧
        now.starfrit.trace = joined.starfrit.trace ++ new ∧
        new.map Processed.frame = first ++ common ++ later ∧
        shown.map Client.Displayed.frame = first' ++ common ∧
        first.length ≤ 1 ∧ first'.length ≤ 1 ∧ later = [] := by
  have hplay : (Bridge.play scaleBridge [deviceSaysBit, newConnection 5, deviceSaysBit]).map
      (fun now => (now.1, now.2.phase)) =
      some ([[.irRead (bytesOf frameOfOne)], [.accepted 5]] ++
        [[.irRead (bytesOf frameOfOne), .sent 5 (bytesOf frameOfOne)]], .serving) := by
    decide +kernel
  obtain ⟨⟨trace, now⟩, hrun, hnow⟩ := Option.map_eq_some_iff.mp hplay
  obtain ⟨htrace, hserving⟩ := Prod.mk.inj hnow
  have hsteps := Bridge.steps_of_play hrun
  rw [htrace] at hsteps
  obtain ⟨joined, hbefore, hduring⟩ := hsteps.split
  have hjoined : 5 ∈ joined.server.table := by
    rw [(relay_invariant (Bridge.run_relays hbefore)).table_eq]
    decide
  have hall : ([⟨frameOfOne, by decide⟩] : List Client.JavaBlock).flatMap
      (fun block => bytesOf block.words) =
      ([[Event.irRead (bytesOf frameOfOne), .sent 5 (bytesOf frameOfOne)]].flatten.filterMap
        (Event.sentTo 5)).flatten := by
    rfl
  obtain ⟨st, shown, new, first, first', common, later, hclient, hnew, hframes, hframes',
    hlen, hlen', hlater⟩ := late_joiner rfl hbefore hduring hserving hjoined (by simp) .ilp32
      ⟨[], by rw [List.append_nil, hall]⟩
  exact ⟨joined, now, hserving, st, shown, new, first, first', common, later, hclient, hnew,
    hframes, hframes', hlen, hlen', hlater hall⟩

end IrBridge.Daemon
