/-
  Client/Sessions.lean --- the sessions of the Android client.

  `Inv` is kept by every step of the network threads and of the thread of the
  screen.  It has three consequences for every run: only the thread of `mTCP` is
  at work and only its tasks are waiting; the text of the screen belongs to the
  session that is open; and what was shown is, session by session, what a client
  that was just started shows for the blocks of that session alone.

  A thread that has been asked to stop ends after a few steps of its own.
-/
import IrBridge.Client.Activity
import IrBridge.Client.Safety
import IrBridge.Codec.Buffer
import IrBridge.Foundation.Transition

set_option autoImplicit false

namespace IrBridge.Client

open IrBridge.Foundation
open IrBridge.Codec
open IrBridge.Platform
open IrBridge.Scale

/-! ## The blocks of a session -/

/-- The blocks that thread `k` has read. -/
def receivedBy (k : Nat) (trace : List Action) : List Received :=
  trace.filterMap fun
    | .received j received => if j = k then some received else none
    | _ => none

/-- What a client that was just started shows for the blocks. -/
def shownFresh (dm : DataModel) (blocks : List Received) : List Displayed :=
  match blocks.foldlM (fun now received => onDataReceived dm received now)
      (DecodeState.start, []) with
  | .ok now => now.2
  | .error _ => []

/-- What was shown in the sessions before session `k`. -/
def shownBefore (dm : DataModel) (trace : List Action) (k : Nat) : List Displayed :=
  (List.range k).flatMap fun j => shownFresh dm (receivedBy j trace)

theorem receivedBy_snoc (k : Nat) (trace : List Action) (act : Action) :
    receivedBy k (trace ++ [act]) = receivedBy k trace ++ receivedBy k [act] := by
  rw [receivedBy, List.filterMap_append]
  rfl

theorem receivedBy_received (k : Nat) (received : Received) :
    receivedBy k [.received k received] = [received] := by
  simp [receivedBy]

theorem receivedBy_other {j k : Nat} (hne : j ≠ k) (received : Received) :
    receivedBy j [.received k received] = [] := by
  simp [receivedBy, Ne.symm hne]

/-- The words of a block. -/
def Received.words (received : Received) : List LircT :=
  wordsOf (received.data.take received.sz)

/-- What is shown for a frame. -/
def displayed (frame : CString) : Displayed :=
  ⟨frame, figureVerdict frame, screenEvents (figureVerdict frame)⟩

/-- A block of whole words is run through the decoder. -/
theorem onDataReceived_eq_run (dm : DataModel) {received : Received} (hwhole : 4 ∣ received.sz)
    (now : DecodeState × List Displayed) :
    onDataReceived dm received now =
      .ok ((unkn0.wordMachine.run now.1 received.words).1,
        (unkn0.wordMachine.run now.1 received.words).2.foldl figureFrame now.2) := by
  have hlen : received.sz = 4 * received.words.length := by
    rw [Received.words, length_wordsOf, List.length_take_of_le received.fits]
    omega
  rw [onDataReceived_eq_receiveLoop, ← Received.words]
  rw [hlen]
  exact receiveLoop_eq_run unkn0 figureFrame received.words now.1 now.2

/-- From any state of the decoder between frames, blocks of whole words show what
they would show a client that was just started. -/
theorem shownFresh_eq (dm : DataModel) {st : DecodeState} (hst : Holds st [])
    {blocks : List Received} (hwhole : ∀ received ∈ blocks, 4 ∣ received.sz) :
    shownFresh dm blocks =
      (unkn0.wordMachine.run st (blocks.flatMap Received.words)).2.map displayed := by
  have hrun := foldlM_blocks unkn0 figureFrame Received.words blocks
    (fun now received hmem => onDataReceived_eq_run dm (hwhole received hmem) now)
    DecodeState.start []
  rw [shownFresh, hrun]
  show List.foldl figureFrame [] _ = _
  rw [foldl_figureFrame, List.nil_append, (run_refines unkn0 hst _).2,
    (run_refines unkn0 holds_start _).2]
  rfl

/-! ## What holds between two steps -/

/-- The tasks that wait, by what thread `k` has done: while it waits for the
socket there are none; a thread that is refused posts its end alone; any other
posts its start, its blocks and, once it is gone, its end.  The start is among
them unless the session is open. -/
inductive Mailbox (k : Nat) : Bool → List Received → Stage → List Task → Prop where
  | connecting : Mailbox k false [] .connecting []
  | refused : Mailbox k false [] .gone [.threadEnd k]
  | posted (isOpen : Bool) (waiting : List Received) {stage : Stage}
      (hstage : stage ≠ .connecting) :
      Mailbox k isOpen waiting stage
        ((if isOpen then [] else [.threadStart k]) ++
          (waiting.map (.dataReceived k) ++ (if stage = .gone then [.threadEnd k] else [])))

/-- The screen and the decoder, by what has been run of the session. -/
inductive Screen (dm : DataModel) (before : List Displayed) :
    Bool → List Received → Information → List Displayed → DecodeState → Prop where
  | closed (decoder : DecodeState) : Screen dm before false [] .offLine before decoder
  | opened {st : DecodeState} (hst : Holds st []) {processed : List Received}
      (hwhole : ∀ received ∈ processed, 4 ∣ received.sz) :
      Screen dm before true processed (Information.waiting.after (shownFresh dm processed))
        (before ++ shownFresh dm processed)
        (unkn0.wordMachine.run st (processed.flatMap Received.words)).1

/-- Between two steps. -/
structure Inv (dm : DataModel) (trace : List Action) (a : Activity) : Prop where
  /-- only the thread of `mTCP` is at work -/
  running : ∀ k, (a.thread k).stage ≠ .gone → a.mTCP = some k
  /-- it is the latest -/
  latest : ∀ k, a.mTCP = some k → k + 1 = a.started
  /-- the threads to come have read nothing -/
  later : ∀ k, a.started ≤ k → receivedBy k trace = []
  /-- without a thread nothing waits, and all sessions have been shown -/
  idle : a.mTCP = none →
    a.queue = [] ∧ a.info = .offLine ∧ a.shown = shownBefore dm trace a.started
  /-- with one, what it read has been processed or waits -/
  busy : ∀ k, a.mTCP = some k → ∃ isOpen processed waiting,
    receivedBy k trace = processed ++ waiting ∧
      Mailbox k isOpen waiting (a.thread k).stage a.queue ∧
      Screen dm (shownBefore dm trace k) isOpen processed a.info a.shown a.decoder
  /-- the button offers to disconnect only what there is -/
  button : a.button = .disconnect → a.mTCP ≠ none

theorem inv_start (dm : DataModel) : Inv dm [] Activity.start where
  running := fun _ hk => absurd rfl hk
  latest := fun _ hk => nomatch hk
  later := fun _ _ => rfl
  idle := fun _ => ⟨rfl, rfl, rfl⟩
  busy := fun _ hk => nomatch hk
  button := fun h => nomatch h

/-- The first task that waits, and what it leaves waiting. -/
theorem Mailbox.cons_cases {k : Nat} {isOpen : Bool} {waiting : List Received} {stage : Stage}
    {task : Task} {rest : List Task} (h : Mailbox k isOpen waiting stage (task :: rest)) :
    (task = .threadStart k ∧ isOpen = false ∧ Mailbox k true waiting stage rest) ∨
      (∃ received others, task = .dataReceived k received ∧ isOpen = true ∧
        waiting = received :: others ∧ Mailbox k true others stage rest) ∨
      (task = .threadEnd k ∧ waiting = [] ∧ rest = [] ∧ stage = .gone) := by
  generalize hqueue : task :: rest = queue at h
  cases h with
  | connecting => cases hqueue
  | refused =>
      obtain ⟨rfl, rfl⟩ := List.cons.inj hqueue
      exact Or.inr (Or.inr ⟨rfl, rfl, rfl, rfl⟩)
  | posted _ _ hstage =>
      cases isOpen with
      | false =>
          obtain ⟨rfl, rfl⟩ := List.cons.inj hqueue
          exact Or.inl ⟨rfl, rfl, .posted true waiting hstage⟩
      | true =>
          cases waiting with
          | cons received others =>
              obtain ⟨rfl, rfl⟩ := List.cons.inj hqueue
              exact Or.inr (Or.inl ⟨received, others, rfl, rfl, rfl, .posted true others hstage⟩)
          | nil =>
              by_cases hgone : stage = .gone
              · rw [if_pos hgone] at hqueue
                obtain ⟨rfl, rfl⟩ := List.cons.inj hqueue
                exact Or.inr (Or.inr ⟨rfl, rfl, rfl, hgone⟩)
              · rw [if_neg hgone] at hqueue
                cases hqueue

/-- A thread in its loop, or just behind it. -/
def Stage.Running (stage : Stage) : Prop := stage ≠ .connecting ∧ stage ≠ .gone

theorem running_loop : Stage.loop.Running := ⟨by decide, by decide⟩

theorem running_rx : Stage.rx.Running := ⟨by decide, by decide⟩

theorem running_tx : Stage.tx.Running := ⟨by decide, by decide⟩

theorem running_closing : Stage.closing.Running := ⟨by decide, by decide⟩

section Mailboxes

variable {k : Nat} {isOpen : Bool} {waiting : List Received} {stage stage' : Stage}
  {queue : List Task}

theorem Mailbox.running_iff (hstage : stage.Running) :
    Mailbox k isOpen waiting stage queue ↔
      queue = (if isOpen then [] else [.threadStart k]) ++ waiting.map (.dataReceived k) := by
  constructor
  · intro h
    cases h with
    | connecting => exact absurd rfl hstage.1
    | refused => exact absurd rfl hstage.2
    | posted => rw [if_neg hstage.2, List.append_nil]
  · rintro rfl
    have hposted := Mailbox.posted (k := k) isOpen waiting hstage.1
    rwa [if_neg hstage.2, List.append_nil] at hposted

theorem Mailbox.moves (h : Mailbox k isOpen waiting stage queue) (hstage : stage.Running)
    (hstage' : stage'.Running) : Mailbox k isOpen (waiting ++ []) stage' (queue ++ []) := by
  rw [Mailbox.running_iff hstage] at h
  rw [List.append_nil, List.append_nil, Mailbox.running_iff hstage', h]

theorem Mailbox.receives (h : Mailbox k isOpen waiting stage queue) (hstage : stage.Running)
    (hstage' : stage'.Running) (received : Received) :
    Mailbox k isOpen (waiting ++ [received]) stage' (queue ++ [.dataReceived k received]) := by
  rw [Mailbox.running_iff hstage] at h
  rw [Mailbox.running_iff hstage', h, List.map_append, List.append_assoc]
  rfl

theorem Mailbox.closes (h : Mailbox k isOpen waiting stage queue) (hstage : stage.Running) :
    Mailbox k isOpen (waiting ++ []) .gone (queue ++ [.threadEnd k]) := by
  rw [Mailbox.running_iff hstage] at h
  have hposted : Mailbox k isOpen waiting .gone _ := .posted isOpen waiting (by decide)
  rwa [if_pos rfl, ← List.append_assoc, ← h, ← List.append_nil waiting] at hposted

theorem Mailbox.connects (h : Mailbox k isOpen waiting .connecting queue) :
    Mailbox k isOpen (waiting ++ []) .loop (queue ++ [.threadStart k]) := by
  cases h with
  | connecting => exact .posted false [] (by decide)
  | posted _ _ hstage => exact absurd rfl hstage

theorem Mailbox.refuses (h : Mailbox k isOpen waiting .connecting queue) :
    Mailbox k isOpen (waiting ++ []) .gone (queue ++ [.threadEnd k]) := by
  cases h with
  | connecting => exact .refused
  | posted _ _ hstage => exact absurd rfl hstage

end Mailboxes

theorem Information.after_append (info : Information) (shown new : List Displayed) :
    (info.after shown).after new = info.after (shown ++ new) := by
  rw [Information.after, Information.after, Information.after, List.flatMap_append,
    List.foldl_append]

section Screens

variable {dm : DataModel} {before : List Displayed} {isOpen : Bool} {processed : List Received}
  {info : Information} {shown : List Displayed} {decoder : DecodeState}

theorem Screen.shown_eq (h : Screen dm before isOpen processed info shown decoder) :
    shown = before ++ shownFresh dm processed := by
  cases h with
  | closed => exact (List.append_nil _).symm
  | opened => rfl

theorem Screen.info_eq (h : Screen dm before isOpen processed info shown decoder) :
    info = if isOpen then Information.waiting.after (shownFresh dm processed) else .offLine := by
  cases h with
  | closed => rfl
  | opened => rfl

/-- A session opens with a decoder that is reset. -/
theorem Screen.start (h : Screen dm before false processed info shown decoder) :
    Screen dm before true processed .waiting shown (unkn0DecodeReset decoder) := by
  cases h with
  | closed =>
      have hopened : Screen dm before true [] _ _ _ :=
        .opened (holds_reset decoder) fun received hr => absurd hr List.not_mem_nil
      rwa [shownFresh, List.foldlM_nil, pure_eq_ok, List.append_nil] at hopened

/-- One more block of an open session. -/
theorem Screen.receive (h : Screen dm before true processed info shown decoder)
    {received : Received}
    {decoder' : DecodeState} {new : List Displayed}
    (hcall : onDataReceived dm received (decoder, []) = .ok (decoder', new)) :
    Screen dm before true (processed ++ [received]) (info.after new) (shown ++ new) decoder' := by
  cases h with
  | @opened st hst _ hwhole =>
      have hdvd := (onDataReceived_ok_iff dm received _ []).mp ⟨_, hcall⟩
      have hall : ∀ r ∈ processed ++ [received], 4 ∣ r.sz := by
        intro r hr
        rcases List.mem_append.mp hr with hr | hr
        · exact hwhole r hr
        · rw [List.mem_singleton.mp hr]
          exact hdvd
      rw [onDataReceived_eq_run dm hdvd, foldl_figureFrame, List.nil_append] at hcall
      obtain ⟨rfl, rfl⟩ := Prod.mk.inj (Except.ok.inj hcall)
      have hrun := Transducer.run_append unkn0.wordMachine st (processed.flatMap Received.words)
        received.words
      have hwords : (processed ++ [received]).flatMap Received.words =
          processed.flatMap Received.words ++ received.words := by
        rw [List.flatMap_append, List.flatMap_singleton]
      have hshown : shownFresh dm (processed ++ [received]) = shownFresh dm processed ++
          (unkn0.wordMachine.run (unkn0.wordMachine.run st (processed.flatMap Received.words)).1
            received.words).2.map displayed := by
        rw [shownFresh_eq dm hst hall, shownFresh_eq dm hst hwhole, hwords, hrun, List.map_append]
      have hscreen : Screen dm before true (processed ++ [received]) _ _ _ := .opened hst hall
      rw [hshown, ← Information.after_append, ← List.append_assoc, hwords, hrun] at hscreen
      exact hscreen

end Screens

section Steps

variable {dm : DataModel} {trace : List Action} {a : Activity}

theorem shownBefore_congr {trace' : List Action} {k : Nat}
    (hsame : ∀ j < k, receivedBy j trace' = receivedBy j trace) :
    shownBefore dm trace' k = shownBefore dm trace k := by
  apply List.flatMap_congr
  intro j hj
  rw [hsame j (List.mem_range.mp hj)]

/-- A step that reads nothing. -/
theorem receivedBy_quiet {act : Action} (hact : ∀ k, receivedBy k [act] = []) (k : Nat) :
    receivedBy k (trace ++ [act]) = receivedBy k trace := by
  rw [receivedBy_snoc, hact, List.append_nil]

/-- The thread of `mTCP` moves on, and posts what keeps its mailbox in order. -/
theorem Inv.move (h : Inv dm trace a) {k : Nat} {stage : Stage} {done : Bool}
    (hthread : a.thread k = ⟨stage, done⟩) (hstage : stage ≠ .gone) {act : Action} {t : NetThread}
    {posted : List Task} {new : List Received}
    (hother : ∀ j, j ≠ k → receivedBy j [act] = []) (hnew : receivedBy k [act] = new)
    (hmail : ∀ isOpen waiting, Mailbox k isOpen waiting stage a.queue →
      Mailbox k isOpen (waiting ++ new) t.stage (a.queue ++ posted)) :
    Inv dm (trace ++ [act]) (a.move k t posted) := by
  have hat : (a.thread k).stage = stage := by rw [hthread]
  have hcurrent := h.running k (hat ▸ hstage)
  have hlatest := h.latest k hcurrent
  have hsame : ∀ j, j ≠ k → receivedBy j (trace ++ [act]) = receivedBy j trace := by
    intro j hj
    rw [receivedBy_snoc, hother j hj, List.append_nil]
  refine ⟨fun j hj => ?_, h.latest, fun j hj => ?_, fun hnone => ?_, fun j hj => ?_, h.button⟩
  · by_cases heq : j = k
    · rw [heq]
      exact hcurrent
    · apply h.running j
      simpa only [Activity.move, Function.update_of_ne heq] using hj
  · have hj' : a.started ≤ j := hj
    rw [hsame j (by omega)]
    exact h.later j hj
  · exact absurd (hcurrent.symm.trans hnone) (Option.some_ne_none k)
  · obtain rfl : k = j := Option.some.inj (hcurrent.symm.trans hj)
    obtain ⟨isOpen, processed, waiting, hread, hbox, hscreen⟩ := h.busy k hcurrent
    refine ⟨isOpen, processed, waiting ++ new, ?_, ?_, ?_⟩
    · rw [receivedBy_snoc, hread, hnew, List.append_assoc]
    · rw [hat] at hbox
      simpa only [Activity.move, Function.update_self] using hmail isOpen waiting hbox
    · rw [shownBefore_congr fun j hj => hsame j (Nat.ne_of_lt hj)]
      exact hscreen

/-- Threads that stay where they are, whatever they are asked. -/
theorem Inv.asked (h : Inv dm trace a) {act : Action} (hact : ∀ k, receivedBy k [act] = [])
    {thread : Nat → NetThread} (hstage : ∀ k, (thread k).stage = (a.thread k).stage) :
    Inv dm (trace ++ [act]) { a with button := .connect, thread := thread } where
  running := fun k hk => h.running k (hstage k ▸ hk)
  latest := h.latest
  later := fun k hk => by rw [receivedBy_quiet hact, h.later k hk]
  idle := fun hnone => by
    rw [shownBefore_congr fun j _ => receivedBy_quiet hact j]
    exact h.idle hnone
  busy := fun k hk => by
    rw [shownBefore_congr fun j _ => receivedBy_quiet hact j, receivedBy_quiet hact]
    dsimp only
    rw [hstage k]
    exact h.busy k hk
  button := fun hbutton => nomatch hbutton

theorem stage_update_done (thread : Nat → NetThread) (k j : Nat) :
    (Function.update thread k { thread k with done := true } j).stage = (thread j).stage := by
  by_cases heq : j = k
  · rw [heq, Function.update_self]
  · rw [Function.update_of_ne heq]

theorem Inv.tcpstop (h : Inv dm trace a) {act : Action} (hact : ∀ k, receivedBy k [act] = []) :
    Inv dm (trace ++ [act]) a.tcpstop := by
  rw [Activity.tcpstop]
  split
  · exact h.asked hact fun k => rfl
  · exact h.asked hact (stage_update_done a.thread _)

/-- A click starts a thread, or asks the one there is to stop. -/
theorem Inv.onClick (h : Inv dm trace a) : Inv dm (trace ++ [.clicked]) a.onClick := by
  have hact : ∀ k, receivedBy k [.clicked] = [] := fun k => rfl
  rw [Activity.onClick]
  split
  · rename_i hnone
    obtain ⟨hqueue, hinfo, hshown⟩ := h.idle hnone
    refine ⟨fun k hk => ?_, fun k hk => ?_, fun k hk => ?_, fun hnone => (nomatch hnone),
      fun k hk => ?_, fun _ => Option.some_ne_none _⟩
    · by_cases heq : k = a.started
      · rw [heq]
      · have hthread : (a.thread k).stage ≠ .gone := by
          simpa only [Function.update_of_ne heq] using hk
        exact absurd (hnone.symm.trans (h.running k hthread)) (Option.some_ne_none k).symm
    · rw [Option.some.inj hk]
    · have hk' : a.started + 1 ≤ k := hk
      rw [receivedBy_quiet hact, h.later k (by omega)]
    · obtain rfl := Option.some.inj hk
      refine ⟨false, [], [], ?_, ?_, ?_⟩
      · rw [receivedBy_quiet hact, h.later a.started (Nat.le_refl _)]
        rfl
      · simpa only [Function.update_self, hqueue] using Mailbox.connecting
      · rw [shownBefore_congr fun j _ => receivedBy_quiet hact j, hinfo, hshown]
        exact .closed a.decoder
  · exact h.tcpstop hact

/-- The session of thread `k` goes on with another screen. -/
theorem Inv.goesOn (h : Inv dm trace a) {k : Nat} (hcurrent : a.mTCP = some k) {act : Action}
    (hact : ∀ k, receivedBy k [act] = []) {isOpen : Bool} {processed waiting : List Received}
    (hread : receivedBy k trace = processed ++ waiting) {rest : List Task}
    (hbox : Mailbox k isOpen waiting (a.thread k).stage rest) {info : Information}
    {shown : List Displayed} {decoder : DecodeState}
    (hscreen : Screen dm (shownBefore dm trace k) isOpen processed info shown decoder) :
    Inv dm (trace ++ [act])
      { a with queue := rest, info := info, shown := shown, decoder := decoder } where
  running := h.running
  latest := h.latest
  later := fun k hk => by rw [receivedBy_quiet hact, h.later k hk]
  idle := fun hnone => absurd (hcurrent.symm.trans hnone) (Option.some_ne_none k)
  busy := fun j hj => by
    obtain rfl : k = j := Option.some.inj (hcurrent.symm.trans hj)
    refine ⟨isOpen, processed, waiting, ?_, hbox, ?_⟩
    · rw [receivedBy_quiet hact, hread]
    · rw [shownBefore_congr fun j _ => receivedBy_quiet hact j]
      exact hscreen
  button := h.button

/-- Its last task is run: everything it has read has been shown. -/
theorem Inv.ends (h : Inv dm trace a) {k : Nat} (hcurrent : a.mTCP = some k)
    (hgone : (a.thread k).stage = .gone)
    (hshown : a.shown = shownBefore dm trace k ++ shownFresh dm (receivedBy k trace))
    {act : Action} (hact : ∀ k, receivedBy k [act] = []) {thread : Nat → NetThread}
    (hstage : ∀ k, (thread k).stage = (a.thread k).stage) :
    Inv dm (trace ++ [act])
      { a with queue := [], button := .connect, thread := thread, mTCP := none,
               info := .offLine } where
  running := fun j hj => by
    have hthread : (a.thread j).stage ≠ .gone := hstage j ▸ hj
    obtain rfl : k = j := Option.some.inj (hcurrent.symm.trans (h.running j hthread))
    exact absurd hgone hthread
  latest := fun _ hj => nomatch hj
  later := fun j hj => by rw [receivedBy_quiet hact, h.later j hj]
  idle := fun _ => by
    have hall : shownBefore dm trace (k + 1) = a.shown := by
      rw [hshown, shownBefore, List.range_succ, List.flatMap_append, List.flatMap_singleton,
        ← shownBefore]
    refine ⟨rfl, rfl, ?_⟩
    rw [shownBefore_congr fun j _ => receivedBy_quiet hact j]
    show a.shown = shownBefore dm trace a.started
    rw [← h.latest k hcurrent, hall]
  busy := fun _ hj => nomatch hj
  button := fun hbutton => nomatch hbutton

/-- The thread of the screen runs a task. -/
theorem Inv.ran (h : Inv dm trace a) {task : Task} {rest : List Task}
    (hqueue : a.queue = task :: rest)
    (halive : (({ a with queue := rest } : Activity).runTask dm task).fault = none) :
    Inv dm (trace ++ [.ran task]) (({ a with queue := rest } : Activity).runTask dm task) := by
  have hact : ∀ k, receivedBy k [.ran task] = [] := fun k => rfl
  obtain ⟨k, hcurrent⟩ : ∃ k, a.mTCP = some k := by
    cases hcurrent : a.mTCP with
    | none =>
        rw [(h.idle hcurrent).1] at hqueue
        cases hqueue
    | some k => exact ⟨k, rfl⟩
  obtain ⟨isOpen, processed, waiting, hread, hbox, hscreen⟩ := h.busy k hcurrent
  rw [hqueue] at hbox
  rcases hbox.cons_cases with ⟨rfl, rfl, hrest⟩ | ⟨received, others, rfl, rfl, rfl, hrest⟩ |
    ⟨rfl, rfl, rfl, hgone⟩
  · exact h.goesOn hcurrent hact hread hrest hscreen.start
  · rw [Activity.runTask] at halive ⊢
    cases hcall : onDataReceived dm received (a.decoder, []) with
    | error fault =>
        rw [hcall] at halive
        cases halive
    | ok next =>
        rw [List.append_cons] at hread
        exact h.goesOn hcurrent hact hread hrest (hscreen.receive hcall)
  · have hstop := Activity.tcpstop_of_some (a := { a with queue := [] }) hcurrent
    rw [List.append_nil] at hread
    rw [Activity.runTask, hstop]
    exact h.ends hcurrent hgone (hread ▸ hscreen.shown_eq) hact (stage_update_done a.thread k)

/-- Every step keeps it, unless a native call goes wrong. -/
theorem Inv.step (h : Inv dm trace a) {act : Action} {a' : Activity}
    (hstep : Activity.Step dm a act a') (halive : a'.fault = none) :
    Inv dm (trace ++ [act]) a' := by
  cases hstep with
  | clicked _ => exact h.onClick
  | destroyed _ => exact h.tcpstop fun k => rfl
  | ran _ hqueue => exact h.ran hqueue halive
  | connected _ hthread =>
      exact h.move hthread (by decide) (fun j _ => rfl) rfl fun _ _ hbox => hbox.connects
  | refused _ hthread =>
      exact h.move hthread (by decide) (fun j _ => rfl) rfl fun _ _ hbox => hbox.refuses
  | @tested _ k done hthread =>
      have hrunning : (if done then Stage.closing else Stage.rx).Running := by
        cases done with
        | true => exact running_closing
        | false => exact running_rx
      exact h.move hthread (by decide) (fun j _ => rfl) rfl
        fun _ _ hbox => hbox.moves running_loop hrunning
  | @received _ k _ hthread received _ _ _ =>
      exact h.move hthread (by decide) (fun j hj => receivedBy_other hj received)
        (receivedBy_received k received)
        fun _ _ hbox => hbox.receives running_rx running_tx received
  | nothing _ hthread =>
      exact h.move hthread (by decide) (fun j _ => rfl) rfl
        fun _ _ hbox => hbox.moves running_rx running_tx
  | transmitted _ hthread =>
      exact h.move hthread (by decide) (fun j _ => rfl) rfl
        fun _ _ hbox => hbox.moves running_tx running_loop
  | @failed _ k stage _ hthread hbody =>
      have hrunning : stage.Running := by
        rcases hbody with rfl | rfl
        · exact running_rx
        · exact running_tx
      exact h.move hthread hrunning.2 (fun j _ => rfl) rfl
        fun _ _ hbox => hbox.moves hrunning running_loop
  | closed _ hthread =>
      exact h.move hthread (by decide) (fun j _ => rfl) rfl
        fun _ _ hbox => hbox.closes running_closing

end Steps

/-- Every state of every run in which nothing went wrong. -/
theorem inv_of_run {dm : DataModel} {trace : List Action} {a : Activity}
    (hrun : Steps (Activity.Step dm) Activity.start trace a) (halive : a.fault = none) :
    Inv dm trace a := by
  refine hrun.invariant (fun trace a => a.fault = none → Inv dm trace a) (fun _ => inv_start dm)
    ?_ halive
  intro trace a act a' hinv hstep halive
  have hbefore : a.fault = none := by
    cases hstep <;> assumption
  exact (hinv hbefore).step hstep halive

/-! ## Main results -/

/-- The thread that posted a task. -/
def Task.owner : Task → Nat
  | .threadStart k => k
  | .dataReceived k _ => k
  | .threadEnd k => k

/-- The block it brings. -/
def Task.block : Task → Option Received
  | .dataReceived _ received => some received
  | _ => none

theorem Mailbox.owner_eq {k : Nat} {isOpen : Bool} {waiting : List Received} {stage : Stage}
    {queue : List Task} (h : Mailbox k isOpen waiting stage queue) :
    ∀ task ∈ queue, task.owner = k := by
  cases h with
  | connecting => exact fun _ htask => absurd htask List.not_mem_nil
  | refused => exact List.forall_mem_singleton.mpr rfl
  | posted _ _ _ =>
      intro task htask
      rcases List.mem_append.mp htask with htask | htask
      · cases isOpen with
        | true => cases htask
        | false => rw [List.mem_singleton.mp htask]; rfl
      rcases List.mem_append.mp htask with htask | htask
      · obtain ⟨received, _, rfl⟩ := List.mem_map.mp htask
        rfl
      · split at htask
        · rw [List.mem_singleton.mp htask]
          rfl
        · cases htask

theorem Mailbox.blocks_eq {k : Nat} {isOpen : Bool} {waiting : List Received} {stage : Stage}
    {queue : List Task} (h : Mailbox k isOpen waiting stage queue) :
    queue.filterMap Task.block = waiting := by
  cases h with
  | connecting => rfl
  | refused => rfl
  | posted _ _ _ =>
      have hblocks : (waiting.map (Task.dataReceived k)).filterMap Task.block = waiting := by
        rw [List.filterMap_map]
        exact List.filterMap_some
      rw [List.filterMap_append, List.filterMap_append, hblocks]
      have hstart : (if isOpen then [] else [Task.threadStart k]).filterMap Task.block = [] := by
        cases isOpen <;> rfl
      have hend : (if stage = .gone then [Task.threadEnd k] else []).filterMap Task.block = [] := by
        split <;> rfl
      rw [hstart, hend, List.nil_append, List.append_nil]

/-- However clicks, threads and posted tasks interleave: at most one thread is at
work, and it is the one of `mTCP`; every task that waits is one of its tasks; and
while there is none, nothing waits and the screen says `Off line` over a button
that says `CONNECT`. -/
theorem one_session {dm : DataModel} {trace : List Action} {a : Activity}
    (hrun : Steps (Activity.Step dm) Activity.start trace a) (halive : a.fault = none) :
    (∀ k, (a.thread k).stage ≠ .gone → a.mTCP = some k) ∧
      (∀ task ∈ a.queue, a.mTCP = some task.owner) ∧
      (a.mTCP = none → a.queue = [] ∧ a.info = .offLine ∧ a.button = .connect) := by
  have hinv := inv_of_run hrun halive
  refine ⟨hinv.running, fun task htask => ?_, fun hnone => ?_⟩
  · cases hcurrent : a.mTCP with
    | none =>
        rw [(hinv.idle hcurrent).1] at htask
        cases htask
    | some k =>
        obtain ⟨_, _, _, _, hbox, _⟩ := hinv.busy k hcurrent
        rw [hbox.owner_eq task htask]
  · obtain ⟨hqueue, hinfo, _⟩ := hinv.idle hnone
    refine ⟨hqueue, hinfo, ?_⟩
    cases hbutton : a.button with
    | connect => rfl
    | disconnect => exact absurd hnone (hinv.button hbutton)

/-- Four bytes of a pulse. -/
def fourBytes : Received where
  data := List.replicate 4 1#8
  sz := 4
  fits := by decide
  java := by decide

/-- The first thread is refused; the second is connected and has read a block. -/
theorem secondSession_run (dm : DataModel) :
    ∃ a, Steps (Activity.Step dm) Activity.start
        [.clicked, .refused 0, .ran (.threadEnd 0), .clicked, .connected 1, .ran (.threadStart 1),
          .tested 1, .received 1 fourBytes] a ∧
      a.fault = none ∧ a.started = 2 ∧ a.mTCP = some 1 ∧
      a.queue = [.dataReceived 1 fourBytes] := by
  have hclick : Steps (Activity.Step dm) Activity.start _ _ := Steps.refl.snoc (.clicked rfl)
  have hrefused := hclick.snoc (.refused rfl (k := 0) rfl)
  have hend := hrefused.snoc (.ran rfl rfl)
  have hagain := hend.snoc (.clicked rfl)
  have hconnected := hagain.snoc (.connected rfl (k := 1) rfl)
  have hstart := hconnected.snoc (.ran rfl rfl)
  have htested := hstart.snoc (.tested rfl (k := 1) rfl)
  have hread := htested.snoc
    (.received rfl (k := 1) rfl fourBytes (by decide) (by decide) rfl)
  exact ⟨_, hread, rfl, rfl, rfl, rfl⟩

/-- The second thread alone is at work. -/
theorem one_session_second :
    ∃ trace a, Steps (Activity.Step .ilp32) Activity.start trace a ∧ a.mTCP = some 1 ∧
      (∀ k, (a.thread k).stage ≠ .gone → a.mTCP = some k) ∧
      (∀ task ∈ a.queue, a.mTCP = some task.owner) := by
  obtain ⟨a, hrun, halive, _, hcurrent, _⟩ := secondSession_run .ilp32
  obtain ⟨hrunning, hqueue, _⟩ := one_session hrun halive
  exact ⟨_, a, hrun, hcurrent, hrunning, hqueue⟩

/-- However they interleave: what has been shown is what a client that was just
started shows for the blocks of each session, session after session, the latest as
far as its blocks have been processed; the others wait.  The text of the screen is
`Off line` or comes from the blocks of the latest session alone. -/
theorem sessions_apart {dm : DataModel} {trace : List Action} {a : Activity}
    (hrun : Steps (Activity.Step dm) Activity.start trace a) (halive : a.fault = none) :
    ∃ processed,
      receivedBy (a.started - 1) trace = processed ++ a.queue.filterMap Task.block ∧
      a.shown = shownBefore dm trace (a.started - 1) ++ shownFresh dm processed ∧
      (a.info = .offLine ∨
        a.mTCP ≠ none ∧ a.info = Information.waiting.after (shownFresh dm processed)) := by
  have hinv := inv_of_run hrun halive
  cases hcurrent : a.mTCP with
  | none =>
      obtain ⟨hqueue, hinfo, hshown⟩ := hinv.idle hcurrent
      refine ⟨receivedBy (a.started - 1) trace, ?_, ?_, Or.inl hinfo⟩
      · rw [hqueue, List.filterMap_nil, List.append_nil]
      · cases hstarted : a.started with
        | zero =>
            rw [hstarted] at hshown
            rw [hinv.later _ (by omega)]
            exact hshown
        | succ n =>
            rw [hshown, hstarted, shownBefore, List.range_succ, List.flatMap_append,
              List.flatMap_singleton]
            rfl
  | some k =>
      obtain ⟨isOpen, processed, waiting, hread, hbox, hscreen⟩ := hinv.busy k hcurrent
      have hlatest : a.started - 1 = k := by
        have h := hinv.latest k hcurrent
        omega
      refine ⟨processed, ?_, ?_, ?_⟩
      · rw [hlatest, hread, hbox.blocks_eq]
      · rw [hlatest]
        exact hscreen.shown_eq
      · cases isOpen with
        | false => exact Or.inl hscreen.info_eq
        | true => exact Or.inr ⟨Option.some_ne_none k, hscreen.info_eq⟩

/-- The block of the second session waits; nothing has been shown in the first. -/
theorem sessions_apart_second :
    ∃ trace a processed, Steps (Activity.Step .ilp32) Activity.start trace a ∧
      a.queue.filterMap Task.block = [fourBytes] ∧
      receivedBy 1 trace = processed ++ [fourBytes] ∧
      a.shown = shownBefore .ilp32 trace 1 ++ shownFresh .ilp32 processed := by
  obtain ⟨a, hrun, halive, hstarted, _, hqueue⟩ := secondSession_run .ilp32
  obtain ⟨processed, hread, hshown, _⟩ := sessions_apart hrun halive
  rw [hstarted] at hread hshown
  rw [hqueue] at hread
  exact ⟨_, a, processed, hrun, by rw [hqueue]; rfl, hread, hshown⟩

/-! ## A thread that has been asked to stop -/

/-- The steps of thread `k`. -/
def Action.isOf (k : Nat) : Action → Bool
  | .clicked | .destroyed | .ran _ => false
  | .connected j | .refused j | .tested j | .received j _ | .nothing j | .transmitted j
  | .failed j | .closed j => j = k

/-- The steps it has left once it has been asked. -/
def Stage.stepsLeft : Stage → Nat
  | .gone => 0
  | .closing => 1
  | .loop => 2
  | .tx => 3
  | .connecting => 3
  | .rx => 4

/-- The blocks it can still read. -/
def Stage.blocksLeft (stage : Stage) : Nat := if stage = .rx then 1 else 0

/-- Thread `k` has been asked to stop. -/
def Activity.Asked (a : Activity) (k : Nat) : Prop := k < a.started ∧ (a.thread k).done = true

/-- What a step costs a thread that has been asked. -/
structure Pays (k : Nat) (a : Activity) (act : Action) (a' : Activity) : Prop where
  asked : a'.Asked k
  steps : (if act.isOf k then 1 else 0) + (a'.thread k).stage.stepsLeft ≤
    (a.thread k).stage.stepsLeft
  blocks : (receivedBy k [act]).length + (a'.thread k).stage.blocksLeft ≤
    (a.thread k).stage.blocksLeft

/-- Only a step of the thread reads a block of it. -/
theorem receivedBy_of_not_isOf {k : Nat} {act : Action} (hof : act.isOf k = false) :
    receivedBy k [act] = [] := by
  cases act with
  | received j received =>
      have hne : k ≠ j := fun heq => of_decide_eq_false hof heq.symm
      exact receivedBy_other hne received
  | _ => rfl

section Asked

variable {dm : DataModel} {a a' : Activity} {k : Nat}

/-- A step of some thread. -/
theorem Activity.Asked.move (h : a.Asked k) {j : Nat} {stage : Stage} {done : Bool}
    (hthread : a.thread j = ⟨stage, done⟩) {act : Action} (hof : act.isOf k = decide (j = k))
    {stage' : Stage} {done' : Bool} {posted : List Task} (read : Nat)
    (hread : (receivedBy j [act]).length = read) (hasked : done = true → done' = true)
    (hsteps : done = true → 1 + stage'.stepsLeft ≤ stage.stepsLeft)
    (hblocks : done = true → read + stage'.blocksLeft ≤ stage.blocksLeft) :
    Pays k a act (a.move j ⟨stage', done'⟩ posted) := by
  obtain ⟨hstarted, hdone⟩ := h
  by_cases heq : j = k
  · subst heq
    have hat : (a.move j ⟨stage', done'⟩ posted).thread j = ⟨stage', done'⟩ := by
      show Function.update a.thread j _ j = _
      rw [Function.update_self]
    rw [hthread] at hdone
    refine ⟨⟨hstarted, ?_⟩, ?_, ?_⟩
    · rw [hat]
      exact hasked hdone
    · rw [hat, hthread, hof, decide_eq_true rfl, if_pos rfl]
      exact hsteps hdone
    · rw [hat, hthread, hread]
      exact hblocks hdone
  · have hat : (a.move j ⟨stage', done'⟩ posted).thread k = a.thread k := by
      show Function.update a.thread j _ k = a.thread k
      rw [Function.update_of_ne (Ne.symm heq)]
    rw [decide_eq_false heq] at hof
    refine ⟨⟨hstarted, hat ▸ hdone⟩, ?_, ?_⟩
    · rw [hat, hof, if_neg Bool.false_ne_true, Nat.zero_add]
    · rw [hat, receivedBy_of_not_isOf hof, List.length_nil, Nat.zero_add]

/-- A step of the thread of the screen. -/
theorem Activity.Asked.screen (h : a.Asked k) {act : Action} (hof : act.isOf k = false)
    (hstarted : a.started ≤ a'.started) (hstage : (a'.thread k).stage = (a.thread k).stage)
    (hdone : (a.thread k).done = true → (a'.thread k).done = true) : Pays k a act a' where
  asked := ⟨Nat.lt_of_lt_of_le h.1 hstarted, hdone h.2⟩
  steps := by rw [hof, if_neg Bool.false_ne_true, hstage, Nat.zero_add]
  blocks := by rw [receivedBy_of_not_isOf hof, hstage, List.length_nil, Nat.zero_add]

theorem done_update_done {thread : Nat → NetThread} (j : Nat) (hdone : (thread k).done = true) :
    (Function.update thread j { thread j with done := true } k).done = true := by
  by_cases heq : k = j
  · rw [heq, Function.update_self]
  · rw [Function.update_of_ne heq, hdone]

/-- `tcpstop`, whatever `mTCP` is then. -/
theorem Activity.Asked.tcpstop (h : a.Asked k) {act : Action} (hof : act.isOf k = false) :
    Pays k a act a.tcpstop := by
  rw [Activity.tcpstop]
  split
  · exact h.screen hof (Nat.le_refl _) rfl id
  · exact h.screen hof (Nat.le_refl _) (stage_update_done a.thread _ k) (done_update_done _)

theorem Activity.Asked.step (h : a.Asked k) {act : Action} (hstep : Activity.Step dm a act a') :
    Pays k a act a' := by
  cases hstep with
  | clicked _ =>
      rw [Activity.onClick]
      split
      · -- The thread that is started is a new one.
        have hne : k ≠ a.started := Nat.ne_of_lt h.1
        have hat := Function.update_of_ne hne (⟨.connecting, false⟩ : NetThread) a.thread
        refine h.screen rfl (Nat.le_succ _) ?_ ?_
        · exact congrArg NetThread.stage hat
        · exact fun hdone => (congrArg NetThread.done hat).trans hdone
      · exact h.tcpstop rfl
  | destroyed _ => exact h.tcpstop rfl
  | @ran _ task rest _ =>
      cases task with
      | threadStart _ => exact h.screen rfl (Nat.le_refl _) rfl id
      | dataReceived _ received =>
          rw [Activity.runTask]
          split
          · exact h.screen rfl (Nat.le_refl _) rfl id
          · exact h.screen rfl (Nat.le_refl _) rfl id
      | threadEnd _ =>
          have hrest : ({ a with queue := rest } : Activity).Asked k := h
          have hpays : Pays k _ .destroyed _ := hrest.tcpstop rfl
          exact ⟨hpays.asked, hpays.steps, hpays.blocks⟩
  | connected _ hthread =>
      exact h.move hthread rfl 0 rfl id (fun _ => by decide) (fun _ => by decide)
  | refused _ hthread =>
      exact h.move hthread rfl 0 rfl id (fun _ => by decide) (fun _ => by decide)
  | tested _ hthread =>
      exact h.move hthread rfl 0 rfl id (fun hdone => by rw [hdone]; decide)
        (fun hdone => by rw [hdone]; decide)
  | received _ hthread received _ _ _ =>
      exact h.move hthread rfl 1 (congrArg List.length (receivedBy_received _ received)) id
        (fun _ => by decide) (fun _ => by decide)
  | nothing _ hthread =>
      exact h.move hthread rfl 0 rfl id (fun _ => by decide) (fun _ => by decide)
  | transmitted _ hthread =>
      exact h.move hthread rfl 0 rfl id (fun _ => by decide) (fun _ => by decide)
  | failed _ hthread hbody =>
      rcases hbody with rfl | rfl
      · exact h.move hthread rfl 0 rfl (fun _ => rfl) (fun _ => by decide) (fun _ => by decide)
      · exact h.move hthread rfl 0 rfl (fun _ => rfl) (fun _ => by decide) (fun _ => by decide)
  | closed _ hthread =>
      exact h.move hthread rfl 0 rfl id (fun _ => by decide) (fun _ => by decide)

/-- A thread that is still there can take a step. -/
theorem Activity.thread_moves (dm : DataModel) (halive : a.fault = none)
    (hthere : (a.thread k).stage ≠ .gone) :
    ∃ act a', act.isOf k = true ∧ Activity.Step dm a act a' := by
  cases hthread : a.thread k with
  | mk stage done =>
      rw [hthread] at hthere
      cases stage with
      | gone => exact absurd rfl hthere
      | connecting => exact ⟨.refused k, _, decide_eq_true rfl, .refused halive hthread⟩
      | loop => exact ⟨.tested k, _, decide_eq_true rfl, .tested halive hthread⟩
      | rx => exact ⟨.nothing k, _, decide_eq_true rfl, .nothing halive hthread⟩
      | tx => exact ⟨.transmitted k, _, decide_eq_true rfl, .transmitted halive hthread⟩
      | closing => exact ⟨.closed k, _, decide_eq_true rfl, .closed halive hthread⟩

/-- What the steps of a run cost it. -/
theorem Activity.Asked.run (h : a.Asked k) {trace : List Action}
    (hrun : Steps (Activity.Step dm) a trace a') :
    a'.Asked k ∧
      (trace.filter (Action.isOf k)).length + (a'.thread k).stage.stepsLeft ≤
        (a.thread k).stage.stepsLeft ∧
      (receivedBy k trace).length + (a'.thread k).stage.blocksLeft ≤
        (a.thread k).stage.blocksLeft := by
  refine hrun.invariant (fun trace a' => a'.Asked k ∧
      (trace.filter (Action.isOf k)).length + (a'.thread k).stage.stepsLeft ≤
        (a.thread k).stage.stepsLeft ∧
      (receivedBy k trace).length + (a'.thread k).stage.blocksLeft ≤
        (a.thread k).stage.blocksLeft) ⟨h, ?_, ?_⟩ ?_
  · exact Nat.le_of_eq (Nat.zero_add _)
  · exact Nat.le_of_eq (Nat.zero_add _)
  · rintro trace b act b' ⟨hasked, hsteps, hblocks⟩ hstep
    have hpays := hasked.step hstep
    have hsteps' := hpays.steps
    have hblocks' := hpays.blocks
    refine ⟨hpays.asked, ?_, ?_⟩
    · rw [List.filter_append, List.length_append]
      cases hof : act.isOf k with
      | true =>
          rw [hof, if_pos rfl] at hsteps'
          rw [List.filter_cons_of_pos hof, List.filter_nil, List.length_singleton]
          omega
      | false =>
          rw [hof, if_neg Bool.false_ne_true] at hsteps'
          rw [List.filter_cons_of_neg (by rw [hof]; exact Bool.false_ne_true), List.filter_nil,
            List.length_nil]
          omega
    · rw [receivedBy_snoc, List.length_append]
      omega

end Asked

theorem Stage.left_le (stage : Stage) : stage.stepsLeft ≤ 4 ∧ stage.blocksLeft ≤ 1 := by
  cases stage <;> exact ⟨by decide, by decide⟩

/-- A thread that has been asked to stop takes at most four more steps and reads
at most one more block, whatever else happens in between; until it is gone, it can
take a step. -/
theorem stops_soon {dm : DataModel} {a a' : Activity} {k : Nat} (hstarted : k < a.started)
    (hdone : (a.thread k).done = true) {trace : List Action}
    (hrun : Steps (Activity.Step dm) a trace a') :
    (trace.filter (Action.isOf k)).length ≤ 4 ∧ (receivedBy k trace).length ≤ 1 ∧
      (a'.fault = none → (a'.thread k).stage ≠ .gone →
        ∃ act a'', act.isOf k = true ∧ Activity.Step dm a' act a'') := by
  have hasked : a.Asked k := ⟨hstarted, hdone⟩
  obtain ⟨_, hsteps, hblocks⟩ := hasked.run hrun
  obtain ⟨hfour, hone⟩ := (a.thread k).stage.left_le
  exact ⟨by omega, by omega, Activity.thread_moves dm⟩

/-- A second click, while the thread is in its loop. -/
theorem stops_soon_loop :
    ∃ a a', (a.thread 0).done = true ∧
      Steps (Activity.Step .ilp32) a [.tested 0, .closed 0] a' ∧
      ([.tested 0, .closed 0].filter (Action.isOf 0)).length ≤ 4 := by
  let a := (Activity.start.onClick.move 0 ⟨.loop, false⟩ [.threadStart 0]).onClick
  have htested : Steps (Activity.Step .ilp32) a [.tested 0] _ := Steps.refl.snoc (.tested rfl rfl)
  have hclosed := htested.snoc (.closed rfl (k := 0) rfl)
  exact ⟨a, _, rfl, hclosed, (stops_soon (k := 0) (by decide) rfl hclosed).1⟩

end IrBridge.Client
