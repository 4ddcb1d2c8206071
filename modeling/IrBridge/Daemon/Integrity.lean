/-
  Daemon/Integrity.lean --- from the clients to the device, over TCP.

  Every connection is a channel: what a client hands to `send` arrives in order
  and without loss, cut or coalesced as TCP likes.  The daemon writes to the
  device what one `recv` returned.  So the bytes are relayed, block by block, and
  the frames only as far as the blocks are frames: the bridge is a raw one and
  nothing on the way knows where a frame ends.

  The connections are numbered in the order in which they are accepted; a client
  may send before that.
-/
import Mathlib.Logic.Function.Basic
import IrBridge.Codec.Encode
import IrBridge.Daemon.Bridge
import IrBridge.Foundation.Channel

set_option autoImplicit false

namespace IrBridge.Daemon

open IrBridge.Foundation
open IrBridge.Codec
open IrBridge.Platform

/-! ## The network -/

/-- A non-empty bit string, encoded, with the size the encoder returned. -/
def IsFrame (frame : List Byte) : Prop :=
  ∃ (dm : DataModel) (s : CString) (e : Encoded) (words : List LircT), s.strlen ≠ 0 ∧
    (necEncode dm s = .ok e ∨ unkn0Encode dm s = .ok e) ∧
    e.out = some (words.map some) ∧ frame = (bytesOf words).take e.size

/-- The connections, and what has reached the two ends. -/
structure Network where
  channels : Nat → Channel Byte
  /-- how many connections were accepted -/
  accepted : Nat
  /-- the connection a descriptor was last given to -/
  owner : Int → Nat
  /-- the blocks received from clients, each with its connection -/
  arrivals : List (Nat × List Byte)
  /-- the `write` calls on the device -/
  device : List (List Byte)

namespace Network

def start : Network := ⟨fun _ => Channel.empty, 0, fun _ => 0, [], []⟩

/-- `write_server` on connection `k`. -/
def send (net : Network) (k : Nat) (frame : List Byte) : Network :=
  { net with channels := Function.update net.channels k ((net.channels k).send frame) }

/-- `recv` on connection `k` gets a block. -/
def receive (net : Network) (k : Nat) (block : List Byte)
    (hblock : block <+: (net.channels k).pending) : Network :=
  { net with
    channels := Function.update net.channels k ((net.channels k).receive block hblock)
    arrivals := net.arrivals ++ [(k, block)] }

/-- What an event means to the network. -/
def see (net : Network) : Event → Network
  | .accepted csock =>
      { net with
        accepted := net.accepted + 1
        owner := Function.update net.owner csock net.accepted }
  | .clientRead csock (byte :: block) =>
      let k := net.owner csock
      if hblock : byte :: block <+: (net.channels k).pending then
        net.receive k (byte :: block) hblock
      else net
  | .irWrite block => { net with device := net.device ++ [block] }
  | _ => net

/-- Every block received is what its connection has pending, or the beginning of
that. -/
def Delivers (net : Network) (events : List Event) : Prop :=
  ∀ csock block, .clientRead csock block ∈ events →
    block <+: (net.channels (net.owner csock)).pending

theorem send_channels (net : Network) (k : Nat) (frame : List Byte) (j : Nat) :
    (net.send k frame).channels j =
      if j = k then (net.channels k).send frame else net.channels j :=
  Function.update_apply ..

theorem receive_channels (net : Network) (k : Nat) (block : List Byte)
    (hblock : block <+: (net.channels k).pending) (j : Nat) :
    (net.receive k block hblock).channels j =
      if j = k then (net.channels k).receive block hblock else net.channels j :=
  Function.update_apply ..

theorem see_clientRead (net : Network) (csock : Int) {block : List Byte} (hne : block ≠ [])
    (hblock : block <+: (net.channels (net.owner csock)).pending) :
    net.see (.clientRead csock block) = net.receive (net.owner csock) block hblock := by
  cases block with
  | nil => exact absurd rfl hne
  | cons byte block => exact dif_pos hblock

end Network

/-! ## The system -/

/-- The daemon and its clients. -/
structure System where
  bridge : Bridge
  net : Network

def System.start : System := ⟨Bridge.start, Network.start⟩

/-- What happens next. -/
inductive Label where
  | send (k : Nat) (frame : List Byte)
  | serve (events : List Event)

/-- A client sends a frame, or the daemon goes through an iteration in which
every read gets bytes of its own connection. -/
inductive System.Step (cfg : Config) : System → Label → System → Prop where
  | send {system : System} (k : Nat) {frame : List Byte} (hframe : IsFrame frame) :
      System.Step cfg system (.send k frame) { system with net := system.net.send k frame }
  | serve {system : System} {b' : Bridge} {events : List Event}
      (hstep : Bridge.Step cfg system.bridge events b')
      (hdelivers : system.net.Delivers events) :
      System.Step cfg system (.serve events) ⟨b', events.foldl Network.see system.net⟩

/-- A run goes on with an iteration. -/
theorem System.serve_round {cfg : Config} {labels : List Label} {b : Bridge} {net : Network}
    (round : Round) (events : List Event)
    (hrun : Steps (System.Step cfg) System.start labels ⟨b, net⟩) (hserving : b.phase = .serving)
    (hevents : (b.iterate cfg round).2 = events) (hadmits : b.Admits events)
    (hdelivers : net.Delivers events) :
    Steps (System.Step cfg) System.start (labels ++ [.serve events])
      ⟨(b.iterate cfg round).1, events.foldl Network.see net⟩ :=
  hrun.snoc (.serve ⟨⟨hserving, round, Prod.ext rfl hevents⟩, hadmits⟩ hdelivers)

/-! ## Integrity -/

/-- The writes are the frames sent, whole, each once, those of one client in
order; all of them, when nothing is pending. -/
def FrameIntegrity (net : Network) : Prop :=
  ∃ served : List (Nat × List Byte), net.device = served.map Prod.snd ∧
    ∀ k, onChannel k served <+: (net.channels k).sent ∧
      ((net.channels k).pending = [] → onChannel k served = (net.channels k).sent)

/-- What holds of the bytes. -/
structure StreamIntegrity (net : Network) : Prop where
  /-- the writes are the blocks received, each once, unmodified and in order -/
  device_eq : net.device = net.arrivals.map Prod.snd
  /-- a block is between 1 and `BUF_SIZE` bytes -/
  fits : ∀ arrival ∈ net.arrivals, 1 ≤ arrival.2.length ∧ arrival.2.length ≤ bufSize
  /-- the blocks of a connection, and what is pending, are the frames sent on
  it -/
  conserved : ∀ k, (onChannel k net.arrivals).flatten ++ (net.channels k).pending =
    (net.channels k).sent.flatten
  /-- and when every block is as long as the frame whose turn it is, then the
  frames are kept -/
  frames_kept : (∀ k, (onChannel k net.arrivals).map List.length <+:
    (net.channels k).sent.map List.length) → FrameIntegrity net

/-- What the steps keep. -/
structure NetworkInvariant (net : Network) : Prop where
  device_eq : net.device = net.arrivals.map Prod.snd
  fits : ∀ arrival ∈ net.arrivals, 1 ≤ arrival.2.length ∧ arrival.2.length ≤ bufSize
  received_eq : ∀ k, (net.channels k).received = onChannel k net.arrivals
  frames : ∀ k, ∀ frame ∈ (net.channels k).sent, frame ≠ []

/-- An encoder's output is never empty. -/
theorem IsFrame.ne_nil {frame : List Byte} (h : IsFrame frame) : frame ≠ [] := by
  obtain ⟨dm, s, e, words, _, henc, hout, rfl⟩ := h
  obtain ⟨W, hencode⟩ : ∃ W, encode dm W s = .ok e :=
    henc.elim (fun h => ⟨necWave, h⟩) fun h => ⟨unkn0Wave, h⟩
  rcases encode_cases hencode with ⟨_, rfl⟩ | ⟨_, hwords, hsize⟩
  · cases hout
  · generalize s.take (toInt s.strlen).toNat = t at hwords hsize
    have hlength := W.length_words t.chars
    have heq : words = W.words t.chars := by
      rw [hwords] at hout
      exact (List.map_injective_iff.mpr (Option.some_injective _) (Option.some.inj hout)).symm
    have hfour : sizeofLircT = 4 := rfl
    intro hnil
    have hzero := congrArg List.length hnil
    rw [List.length_take, length_bytesOf, heq, hsize, hfour, List.length_nil] at hzero
    omega

theorem NetworkInvariant.start : NetworkInvariant Network.start where
  device_eq := rfl
  fits := by simp [Network.start]
  received_eq := fun _ => rfl
  frames := by simp [Network.start, Channel.empty]

theorem NetworkInvariant.send {net : Network} (h : NetworkInvariant net) (k : Nat)
    {frame : List Byte} (hne : frame ≠ []) : NetworkInvariant (net.send k frame) where
  device_eq := h.device_eq
  fits := h.fits
  received_eq := by
    intro j
    rw [Network.send_channels]
    split
    · rename_i hj
      exact hj ▸ h.received_eq k
    · exact h.received_eq j
  frames := by
    intro j f hf
    rw [Network.send_channels] at hf
    split at hf
    · rcases List.mem_append.mp hf with hf | hf
      · exact h.frames k f hf
      · exact List.mem_singleton.mp hf ▸ hne
    · exact h.frames j f hf

/-- A block goes from its connection to the device. -/
theorem NetworkInvariant.receive {net : Network} (h : NetworkInvariant net) (k : Nat)
    {block : List Byte} (hblock : block <+: (net.channels k).pending)
    (hfits : 1 ≤ block.length ∧ block.length ≤ bufSize) :
    NetworkInvariant { net.receive k block hblock with device := net.device ++ [block] } where
  device_eq := by
    show net.device ++ [block] = (net.arrivals ++ [(k, block)]).map Prod.snd
    rw [h.device_eq, List.map_append, List.map_singleton]
  fits := by
    intro arrival harrival
    rcases List.mem_append.mp harrival with harrival | harrival
    · exact h.fits arrival harrival
    · exact List.mem_singleton.mp harrival ▸ hfits
  received_eq := by
    intro j
    show ((net.receive k block hblock).channels j).received =
      onChannel j (net.arrivals ++ [(k, block)])
    rw [Network.receive_channels, onChannel_append]
    split
    · rename_i hj
      rw [hj, onChannel_self, ← h.received_eq k]
      rfl
    · rename_i hj
      rw [onChannel_other (Ne.symm hj), List.append_nil]
      exact h.received_eq j
  frames := by
    intro j f hf
    change f ∈ ((net.receive k block hblock).channels j).sent at hf
    rw [Network.receive_channels] at hf
    split at hf
    · exact h.frames k f hf
    · exact h.frames j f hf

theorem foldl_see_of_quiet {events : List Event}
    (h : ∀ event ∈ events, ∀ net : Network, net.see event = net) (net : Network) :
    events.foldl Network.see net = net := by
  induction events with
  | nil => rfl
  | cons event events ih =>
      rw [List.foldl_cons, h event List.mem_cons_self]
      exact ih fun e he => h e (List.mem_cons_of_mem event he)

theorem foldl_see_goneEvents (gone : List Int) (net : Network) :
    (goneEvents gone).foldl Network.see net = net := by
  refine foldl_see_of_quiet ?_ net
  intro event hevent _
  obtain ⟨csock, _, hmem⟩ := List.mem_flatMap.mp hevent
  rcases List.mem_cons.mp hmem with rfl | hmem
  · rfl
  · rw [List.mem_singleton.mp hmem]
    rfl

/-- An iteration of the daemon keeps the invariant. -/
theorem NetworkInvariant.serve {net : Network} (h : NetworkInvariant net)
    {table table' : List Int} {events : List Event} (hstep : Relay.Next table events table')
    (hdelivers : net.Delivers events) : NetworkInvariant (events.foldl Network.see net) := by
  obtain ⟨env, hstep⟩ := hstep
  cases hstep with
  | stopped =>
      rw [foldl_see_of_quiet]
      · exact h
      · exact forall_mem_stopped (fun _ => rfl) (fun _ _ => rfl) (fun _ => rfl) table
  | failed => exact h
  | ir =>
      rw [foldl_see_of_quiet]
      · exact h
      · intro event hevent _
        rcases List.mem_cons.mp hevent with rfl | hevent
        · rfl
        · split at hevent
          · cases hevent
          · obtain ⟨_, _, rfl⟩ := List.mem_map.mp hevent
            rfl
  | refused => exact h
  | accepted _ => exact ⟨h.device_eq, h.fits, h.received_eq, h.frames⟩
  | pass gone _ =>
      rw [foldl_see_goneEvents]
      exact h
  | served gone _ csock _ hne =>
      have hlength := env.recv csock |>.length_bytes_le
      generalize (env.recv csock).bytes = block at hne hlength hdelivers
      have hblock := hdelivers csock block (List.mem_append_right _ List.mem_cons_self)
      rw [List.foldl_append, foldl_see_goneEvents, servedEvents, List.foldl_cons,
        Network.see_clientRead net csock hne hblock]
      exact h.receive _ hblock ⟨List.length_pos_iff.mpr hne, hlength⟩

/-- So does every run of the system. -/
theorem network_invariant {cfg : Config} {labels : List Label} {system : System}
    (hrun : Steps (System.Step cfg) System.start labels system) :
    NetworkInvariant system.net := by
  refine hrun.invariant (fun _ system => NetworkInvariant system.net) .start ?_
  intro _ _ _ _ hinv hstep
  cases hstep with
  | send k hframe => exact hinv.send k hframe.ne_nil
  | serve hstep hdelivers => exact hinv.serve hstep.relays hdelivers

theorem NetworkInvariant.stream {net : Network} (h : NetworkInvariant net) :
    StreamIntegrity net where
  device_eq := h.device_eq
  fits := h.fits
  conserved := by
    intro k
    rw [← h.received_eq k]
    exact (net.channels k).conserved
  frames_kept := by
    intro hlengths
    refine ⟨net.arrivals, h.device_eq, fun k => ?_⟩
    have hk := hlengths k
    rw [← h.received_eq k] at hk ⊢
    exact ⟨(net.channels k).received_initial hk,
      (net.channels k).received_eq (h.frames k) hk⟩

/-- In every run of the bridge and its clients, whatever the order in which the
clients are served and however TCP cuts their bytes, the bytes are relayed
without loss, and the frames as far as the blocks are frames. -/
theorem stream_integrity {cfg : Config} {labels : List Label} {system : System}
    (hrun : Steps (System.Step cfg) System.start labels system) :
    StreamIntegrity system.net :=
  (network_invariant hrun).stream

/-! ## Two frames of one client -/

theorem see_sent (net : Network) (event : Event) (k : Nat) :
    ((net.see event).channels k).sent = (net.channels k).sent := by
  cases event with
  | clientRead csock block =>
      cases block with
      | nil => rfl
      | cons byte block =>
          rw [Network.see]
          split
          · rw [Network.receive_channels]
            split
            · rename_i hk
              rw [hk]
              rfl
            · rfl
          · rfl
  | _ => rfl

/-- The daemon does not change what was sent. -/
theorem foldl_see_sent (net : Network) (events : List Event) (k : Nat) :
    ((events.foldl Network.see net).channels k).sent = (net.channels k).sent := by
  induction events generalizing net with
  | nil => rfl
  | cons event events ih => rw [List.foldl_cons, ih, see_sent]

theorem FrameIntegrity.mem_sent {net : Network} (h : FrameIntegrity net) {block : List Byte}
    (hblock : block ∈ net.device) : ∃ k, block ∈ (net.channels k).sent := by
  obtain ⟨served, hdevice, hserved⟩ := h
  rw [hdevice] at hblock
  obtain ⟨⟨k, _⟩, harrival, rfl⟩ := List.mem_map.mp hblock
  exact ⟨k, (hserved k).1.subset (mem_of_mem_onChannel harrival)⟩

/-- `unkn0_encode` of one bit. -/
def oneBit : List Byte := bytesOf (unkn0Wave.words ['1'])

theorem isFrame_oneBit : IsFrame oneBit :=
  ⟨.ilp32, CString.ofBits [true], ⟨some ((unkn0Wave.words ['1']).map some), 12⟩,
    unkn0Wave.words ['1'], by decide, Or.inr (by decide +kernel), rfl, by decide +kernel⟩

/-- One client is ready, with a block. -/
def clientSpeaks (csock : Int) (block : List Byte) (fits : block.length ≤ bufSize) : Round where
  irRead := .failed
  accept := -1
  recv := fun _ => .got block fits
  select := .ready (· = csock)

theorem delivers_accepted (net : Network) (csock : Int) : net.Delivers [.accepted csock] := by
  intro _ _ hread
  simp at hread

theorem delivers_served {net : Network} {csock : Int} {block : List Byte}
    (h : block <+: (net.channels (net.owner csock)).pending) :
    net.Delivers (servedEvents csock block) := by
  intro other block' hread
  simp only [servedEvents, List.mem_cons, Event.clientRead.injEq, reduceCtorEq,
    List.not_mem_nil, or_false] at hread
  rw [hread.1, hread.2]
  exact h

/-- Client 5 is connected. -/
def oneClient : System :=
  ⟨(Bridge.start.iterate plainBridge (newConnection 5)).1, Network.start.see (.accepted 5)⟩

theorem oneClient_run :
    Steps (System.Step plainBridge) System.start [.serve [.accepted 5]] oneClient :=
  System.serve_round (newConnection 5) [.accepted 5] .refl rfl (by decide +kernel)
    (by decide +kernel) (delivers_accepted _ 5)

/-- Two frames are under way. -/
def twoFrames : System :=
  { oneClient with net := (oneClient.net.send 0 oneBit).send 0 oneBit }

theorem twoFrames_run : Steps (System.Step plainBridge) System.start
    [.serve [.accepted 5], .send 0 oneBit, .send 0 oneBit] twoFrames :=
  (oneClient_run.snoc (.send 0 isFrame_oneBit)).snoc (.send 0 isFrame_oneBit)

theorem twoFrames_sent (k : Nat) :
    (twoFrames.net.channels k).sent = if k = 0 then [oneBit, oneBit] else [] := by
  rw [twoFrames, Network.send_channels, Network.send_channels, Network.send_channels]
  split <;> rfl

/-- They arrive together and are written as one. -/
theorem frames_coalesce :
    ∃ system, Steps (System.Step plainBridge) System.start
        [.serve [.accepted 5], .send 0 oneBit, .send 0 oneBit,
          .serve (servedEvents 5 (oneBit ++ oneBit))] system ∧
      ¬ FrameIntegrity system.net := by
  refine ⟨_, System.serve_round (clientSpeaks 5 (oneBit ++ oneBit) (by decide))
    (servedEvents 5 (oneBit ++ oneBit)) twoFrames_run (by decide +kernel) (by decide +kernel)
    (by decide +kernel) (delivers_served (by decide +kernel)), fun hframes => ?_⟩
  obtain ⟨k, hk⟩ := hframes.mem_sent (List.mem_singleton_self (oneBit ++ oneBit))
  rw [foldl_see_sent] at hk
  change _ ∈ (twoFrames.net.channels k).sent at hk
  rw [twoFrames_sent] at hk
  have hlonger : oneBit ++ oneBit ≠ oneBit := by decide
  split at hk
  · simp [hlonger] at hk
  · cases hk

/-- They arrive one by one and are kept. -/
theorem stream_integrity_two_frames :
    ∃ system, Steps (System.Step plainBridge) System.start
        [.serve [.accepted 5], .send 0 oneBit, .send 0 oneBit,
          .serve (servedEvents 5 oneBit), .serve (servedEvents 5 oneBit)] system ∧
      FrameIntegrity system.net := by
  have hfirst := System.serve_round (clientSpeaks 5 oneBit (by decide))
    (servedEvents 5 oneBit) twoFrames_run (by decide +kernel) (by decide +kernel)
    (by decide +kernel) (delivers_served (by decide +kernel))
  have hsecond := System.serve_round (clientSpeaks 5 oneBit (by decide))
    (servedEvents 5 oneBit) hfirst (by decide +kernel) (by decide +kernel)
    (by decide +kernel) (delivers_served (by decide +kernel))
  refine ⟨_, hsecond, (stream_integrity hsecond).frames_kept fun k => ?_⟩
  rw [foldl_see_sent, foldl_see_sent]
  change _ <+: (twoFrames.net.channels k).sent.map List.length
  rw [twoFrames_sent]
  change (onChannel k [(0, oneBit), (0, oneBit)]).map List.length <+: _
  by_cases hk : k = 0
  · subst hk
    exact List.prefix_refl _
  · rw [if_neg hk, show [(0, oneBit), (0, oneBit)] = [(0, oneBit)] ++ [(0, oneBit)] from rfl,
      onChannel_append, onChannel_other (Ne.symm hk)]
    exact List.prefix_refl _

end IrBridge.Daemon
