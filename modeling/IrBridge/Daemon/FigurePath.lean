/-
  Daemon/FigurePath.lean --- a figure's way from one phone to another.

  A phone makes a figure with `createFigure` and another bridge puts it on the
  air.  The device of this bridge reads it, in whatever blocks; the daemon
  measures it and sends it on to its clients, and a phone among them decodes it
  again.  Both read the value that the first phone was given, unless it is one of
  those whose check value does not fit.
-/
import IrBridge.Client.CreateFigure
import IrBridge.Daemon.LateJoiner
import IrBridge.Scale.MixedTraffic

set_option autoImplicit false

namespace IrBridge.Daemon

open IrBridge.Foundation
open IrBridge.Codec
open IrBridge.Platform
open IrBridge.Scale
open IrBridge.Client

/-- A figure on the air: what `createFigure` made of the value, what was received
of it, with durations off by at most `J`, and the silence behind it. -/
structure HeardFigure (dm : DataModel) (J : Nat) where
  value : BitVec 32
  ir : List Byte
  received : List LircT
  gap : Nat
  made : createFigure dm value = .ok (some ir)
  jittered : List.Forall₂ (Jitters J) (playback (wordsOf ir)) received
  silence : unkn0TS < gap ∧ gap < 2 ^ 24

variable {dm : DataModel} {J : Nat}

/-- The words that were received, with the silence. -/
def HeardFigure.words (f : HeardFigure dm J) : List LircT := f.received ++ [space f.gap]

/-- It is a frame of the scale's protocol. -/
def HeardFigure.emission (f : HeardFigure dm J) : Emission :=
  ⟨.scale, figureBits f.value, f.received, f.gap⟩

theorem HeardFigure.heard (f : HeardFigure dm J) : f.emission.Heard J := by
  have hir := Option.some.inj (Except.ok.inj ((createFigure_eq dm f.value).symm.trans f.made))
  have hlen := strlen_figureBits f.value
  refine ⟨?_, ?_, f.silence⟩
  · show (figureBits f.value).strlen ≠ 0
    omega
  · have hjittered := f.jittered
    rwa [← hir, wordsOf_bytesOf] at hjittered

/-- A receiver between two frames takes the bits of every figure. -/
theorem frames_of_figures (hJ : J ≤ 199) {st : DecodeState} (hst : Holds st [])
    (figures : List (HeardFigure dm J)) :
    (unkn0.wordMachine.run st (figures.flatMap HeardFigure.words)).2 =
      figures.map fun f => figureBits f.value := by
  have hheard : ∀ e ∈ figures.map HeardFigure.emission, e.Heard J := by
    intro e he
    obtain ⟨f, _, rfl⟩ := List.mem_map.mp he
    exact f.heard
  have hair : onAir (figures.map HeardFigure.emission) = figures.flatMap HeardFigure.words := by
    rw [onAir, List.flatMap_map]
    rfl
  rw [← hair, unkn0_hears hJ hst hheard, List.map_map]
  apply List.map_congr_left
  intro f _
  have hshort : (figureBits f.value).bits.length ≤ capacity := by
    rw [CString.length_bits, strlen_figureBits]
    decide
  show CString.ofBits ((figureBits f.value).bits.take capacity) = figureBits f.value
  rw [List.take_of_length_le hshort, figureBits, CString.bits_ofBits]

/-- Whatever else the daemon does meanwhile, and however the reads of the device cut
the words: those on the air are sent to every client that stays, and the daemon
measures each frame of them once. -/
theorem words_cross {cfg : Config} (hstarfrit : cfg.starfrit = true) {joined now : Bridge}
    {before during : List (List Event)}
    (hbefore : Steps (Bridge.Step cfg) Bridge.start before joined)
    (hduring : Steps (Bridge.Step cfg) joined during now) (hserving : now.phase = .serving)
    (hempty : joined.decoder.idx = 0) {words : List LircT}
    (hheard : (during.flatten.filterMap Event.irBlock).flatten = bytesOf words)
    {csock : Int} (hjoined : csock ∈ joined.server.table)
    (hstays : .closed csock ∉ during.flatten) :
    Holds joined.decoder [] ∧
      (during.flatten.filterMap (Event.sentTo csock)).flatten = bytesOf words ∧
      ∃ new, now.starfrit.trace = joined.starfrit.trace ++ new ∧
        new.map (fun p => (p.frame, p.verdict)) =
          (unkn0.wordMachine.run joined.decoder words).2.map
            fun frame => (frame, starfritVerdict frame) := by
  have hnodup := (relay_invariant (Bridge.run_relays hbefore)).nodup
  have hsent := (run_sentTo (run_relays_from hduring) hnodup hjoined hstays).1
  have hdecodes := run_decodes hstarfrit hduring hserving
  have hwords : heardWords during.flatten = words := by
    rw [heardWords, flatMap_wordsOf hdecodes.whole, hheard, wordsOf_bytesOf]
  obtain ⟨bits, hbits⟩ := holds_of_run hstarfrit hbefore (serving_of_steps hduring hserving)
  have hgap : Holds joined.decoder [] := by
    have hlen := hbits.idx_eq
    rw [hempty] at hlen
    rwa [List.length_eq_zero_iff.mp hlen.symm] at hbits
  have hdaemon := hdecodes.starfrit_eq
  rw [hwords] at hdaemon
  obtain ⟨new, htrace, hframes, hverdicts⟩ := trace_foldl cfg.clock joined.starfrit
    (unkn0.wordMachine.run joined.decoder words).2
  refine ⟨hgap, by rw [hsent, hheard], new, hdaemon ▸ htrace, ?_⟩
  rw [← hframes, List.map_map]
  apply List.map_congr_left
  intro p hp
  rw [Function.comp, (hverdicts p hp).1]

/-- Whatever else the daemon does meanwhile, and however the reads of the device
and the blocks of the connection cut the bytes into words: of the figures on the
air the daemon and every phone that stays connected, in blocks with room, take one
frame each, in order, and make the same of it, which is the value unless its check
value does not fit. -/
theorem figures_cross {cfg : Config} (hstarfrit : cfg.starfrit = true) {joined now : Bridge}
    {before during : List (List Event)}
    (hbefore : Steps (Bridge.Step cfg) Bridge.start before joined)
    (hduring : Steps (Bridge.Step cfg) joined during now) (hserving : now.phase = .serving)
    (hempty : joined.decoder.idx = 0) (hJ : J ≤ 199) {figures : List (HeardFigure dm J)}
    (hheard : (during.flatten.filterMap Event.irBlock).flatten =
      bytesOf (figures.flatMap HeardFigure.words))
    {csock : Int} (hjoined : csock ∈ joined.server.table)
    (hstays : .closed csock ∉ during.flatten) (phone : DataModel) {alloc : Allocator}
    (hroom : 20 ≤ alloc.usable 5) {blocks : List JavaBlock}
    (hdelivered : (blocks.flatMap fun block => bytesOf block.words) =
      (during.flatten.filterMap (Event.sentTo csock)).flatten) :
    ∃ st new,
      figureBlocksIn phone alloc (DecodeState.start, []) blocks =
        .ok (st, figures.map fun f => ⟨figureBits f.value, figureOutcome f.value,
          screenEvents (figureOutcome f.value)⟩) ∧
      now.starfrit.trace = joined.starfrit.trace ++ new ∧
      new.map (fun p => (p.frame, p.verdict)) =
        figures.map fun f => (figureBits f.value, figureOutcome f.value) := by
  obtain ⟨hgap, hsent, new, htrace, hmeasured⟩ :=
    words_cross hstarfrit hbefore hduring hserving hempty hheard hjoined hstays
  have hphoneWords : blocks.flatMap JavaBlock.words = figures.flatMap HeardFigure.words := by
    rw [hsent, bytesOf_flatMap] at hdelivered
    rw [← wordsOf_bytesOf (blocks.flatMap JavaBlock.words), hdelivered, wordsOf_bytesOf]
  have htaken := frames_of_figures hJ holds_start figures
  have hphone := figureBlocks_eq_run phone DecodeState.start [] blocks
  rw [hphoneWords, htaken, foldl_figureFrame, List.nil_append, List.map_map] at hphone
  have hshown : figures.map ((fun frame => (⟨frame, figureVerdict frame,
      screenEvents (figureVerdict frame)⟩ : Displayed)) ∘ fun f => figureBits f.value) =
      figures.map fun f => ⟨figureBits f.value, figureOutcome f.value,
        screenEvents (figureOutcome f.value)⟩ := by
    apply List.map_congr_left
    intro f _
    rw [Function.comp, figureVerdict_eq]
  rw [hshown] at hphone
  have hrooms : ∀ frame ∈ (unkn0.wordMachine.run DecodeState.start
      (blocks.flatMap JavaBlock.words)).2, HasRoom alloc frame := by
    rw [hphoneWords, htaken]
    exact List.forall_mem_map.mpr fun f _ => (hasRoom_figureBits_iff alloc f.value).mpr hroom
  refine ⟨_, new, figureBlocksIn_ok_iff.mpr ⟨hrooms, hphone⟩, htrace, ?_⟩
  rw [hmeasured, frames_of_figures hJ hgap, List.map_map]
  apply List.map_congr_left
  intro f _
  rw [Function.comp, starfritVerdict_eq]

/-- The figure of 88.3, as it was played back. -/
def figureHeard : HeardFigure .ilp32 0 where
  value := 883#32
  ir := bytesOf (unkn0Wave.words (figureBits 883#32).chars)
  received := playback (unkn0Wave.words (figureBits 883#32).chars)
  gap := 77000
  made := createFigure_eq .ilp32 883#32
  jittered := by
    rw [wordsOf_bytesOf, List.forall₂_same]
    exact fun w _ => ⟨rfl, Nat.le_refl _, Nat.le_refl _⟩
  silence := by decide

/-- The device says it. -/
def deviceSaysFigure : Round where
  irRead := .got (bytesOf figureHeard.words) (by decide +kernel)
  accept := -1
  recv := fun _ => .failed
  select := .ready (· = scaleBridge.fd)

/-- Client 5 connects, and the device says some words. -/
theorem connected_run {round : Round} {words : List LircT} (hne : bytesOf words ≠ [])
    (hplay : (Bridge.play scaleBridge [newConnection 5, round]).map
      (fun now => (now.1, now.2.phase)) =
      some ([[.accepted 5]] ++ [[.irRead (bytesOf words), .sent 5 (bytesOf words)]], .serving)) :
    ∃ joined now : Bridge,
      Steps (Bridge.Step scaleBridge) Bridge.start [[.accepted 5]] joined ∧
      Steps (Bridge.Step scaleBridge) joined
        [[.irRead (bytesOf words), .sent 5 (bytesOf words)]] now ∧
      now.phase = .serving ∧ joined.decoder.idx = 0 ∧ 5 ∈ joined.server.table ∧
      ([[Event.irRead (bytesOf words), .sent 5 (bytesOf words)]].flatten.filterMap
        Event.irBlock).flatten = bytesOf words := by
  obtain ⟨⟨trace, now⟩, hrun, hnow⟩ := Option.map_eq_some_iff.mp hplay
  obtain ⟨htrace, hserving⟩ := Prod.mk.inj hnow
  have hsteps := Bridge.steps_of_play hrun
  rw [htrace] at hsteps
  obtain ⟨joined, hbefore, hduring⟩ := hsteps.split
  refine ⟨joined, now, hbefore, hduring, hserving, ?_, ?_, ?_⟩
  · rw [(run_decodes rfl hbefore (serving_of_steps hduring hserving)).decoder_eq]
    rfl
  · rw [(relay_invariant (Bridge.run_relays hbefore)).table_eq]
    decide
  · show (List.filterMap Event.irBlock [_, _]).flatten = _
    rw [List.filterMap_cons_some (Event.irBlock_irRead hne)]
    exact List.append_nil _

/-- A phone on socket 5 shows it, and the daemon measures it. -/
theorem figures_cross_heard :
    ∃ joined now : Bridge, now.phase = .serving ∧
      ∃ st new,
        figureBlocksIn .lp64 .roomy (DecodeState.start, [])
            [⟨figureHeard.words, by decide +kernel⟩] =
          .ok (st, [⟨figureBits 883#32, figureOutcome 883#32,
            screenEvents (figureOutcome 883#32)⟩]) ∧
        now.starfrit.trace = joined.starfrit.trace ++ new ∧
        new.map (fun p => (p.frame, p.verdict)) = [(figureBits 883#32, figureOutcome 883#32)] := by
  have hwords : [figureHeard].flatMap HeardFigure.words = figureHeard.words :=
    List.append_nil _
  obtain ⟨joined, now, hbefore, hduring, hserving, hempty, hjoined, hheard⟩ :=
    connected_run (by decide +kernel : bytesOf figureHeard.words ≠ [])
      (by decide +kernel : (Bridge.play scaleBridge [newConnection 5, deviceSaysFigure]).map _ = _)
  rw [← hwords] at hheard
  have hdelivered : ([⟨figureHeard.words, by decide +kernel⟩] : List JavaBlock).flatMap
      (fun block => bytesOf block.words) =
        ([[Event.irRead (bytesOf figureHeard.words),
          .sent 5 (bytesOf figureHeard.words)]].flatten.filterMap (Event.sentTo 5)).flatten := by
    rfl
  obtain ⟨st, new, hphone, hnew, hmeasured⟩ := figures_cross rfl hbefore hduring hserving hempty
    (Nat.zero_le _) hheard hjoined (by simp) .lp64 (by decide : 20 ≤ Allocator.roomy.usable 5)
    hdelivered
  exact ⟨joined, now, hserving, st, new, hphone, hnew, hmeasured⟩

end IrBridge.Daemon
