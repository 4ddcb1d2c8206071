/-
  Daemon/Startup.lean --- `init_connection`, and `main_demonized` up to its loop.

  A descriptor and a value of `errno` come back from `init_connection` in the same
  `int`, and both are positive; its caller tests for `sock<=0`.  So the loop is
  entered whenever one of `socket`, `bind` and `listen` fails: on a number that is
  the descriptor of no socket of the daemon, or of one that is closed.

  What the calls return is given; what they do to descriptors is a list of acts,
  in order.
-/
import IrBridge.Config.Readconf
import IrBridge.Daemon.Bridge

set_option autoImplicit false

namespace IrBridge.Daemon

open IrBridge.Config
open IrBridge.Platform

/-! ## The system calls -/

/-- `errno` after a call that failed. -/
structure Errno where
  code : Int
  pos : 0 < code

/-- The type of a file, for `S_ISFIFO` and `S_ISCHR`. -/
inductive FileType where
  | fifo
  | chr
  | other
  deriving DecidableEq

/-- What the calls on the device return. -/
structure DeviceCalls where
  /-- `open` -/
  fd : Int
  /-- the first `fstat`; nothing when it returns -1 -/
  firstStat : Option FileType
  /-- the second `fstat` -/
  secondStat : Option FileType
  /-- the mode stored by `ioctl`; nothing when it returns -1 -/
  recMode : Option (BitVec 32)

/-- What the calls of `init_connection` return. -/
structure SocketCalls where
  /-- the descriptor -/
  socket : Except Errno Nat
  bind : Except Errno Unit
  listen : Except Errno Unit

/-- The calls that succeeded. -/
inductive Act where
  /-- `socket` -/
  | created (sock : Int)
  /-- `bind` -/
  | bound (sock : Int) (port : Int)
  /-- `listen` -/
  | listening (sock : Int)
  /-- `closesocket` -/
  | socketClosed (sock : Int)
  /-- `close(fd)` -/
  | irClosed
  deriving DecidableEq

/-- A port in network byte order holds 16 bits of it. -/
def htons (port : Int) : Int := port % 65536

/-! ## The functions -/

/-- `init_connection(port)`: what it returns, and what it has done. -/
def initConnection (calls : SocketCalls) (port : Int) : Int × List Act :=
  if port < 1 ∨ port > 65000 then (-1, [])
  else
    match calls.socket with
    | .error errno => (errno.code, [])
    | .ok sock =>
        match calls.bind with
        | .error errno => (errno.code, [.created sock, .socketClosed sock])
        | .ok _ =>
            match calls.listen with
            | .error errno =>
                (errno.code, [.created sock, .bound sock (htons port), .socketClosed sock])
            | .ok _ => (sock, [.created sock, .bound sock (htons port), .listening sock])

/-- `LIRC_MODE_MODE2`. -/
def lircModeMode2 : BitVec 32 := 4

/-- The checks about the IR driver. -/
def deviceChecks (device : DeviceCalls) : Bool :=
  -- no `ioctl` on a pipe
  if device.firstStat = some .fifo then true
  else
    match device.secondStat with
    | some .fifo => false
    | some .other => false
    | _ => device.recMode = some lircModeMode2

/-- How far `main_demonized` comes. -/
inductive Startup where
  /-- into its loop -/
  | serving (cfg : Config)
  /-- `return` before it -/
  | returned (status : Int)

/-- `main_demonized` up to its loop. -/
def mainDemonized (conf : Conf) (dm : DataModel) (clock : Nat → Int) (device : DeviceCalls)
    (calls : SocketCalls) : Startup × List Act :=
  if device.fd = 0 then (.returned 1, [])
  else if deviceChecks device = false then (.returned 1, [.irClosed])
  else
    let (sock, acts) := initConnection calls conf.port
    if sock ≤ 0 then (.returned 1, acts ++ [.irClosed])
    else (.serving ⟨device.fd, sock, conf.starfrit ≠ 0, dm, clock⟩, acts)

/-! ## What `init_connection` returns -/

/-- All three calls succeed. -/
def SocketCalls.Succeed (calls : SocketCalls) : Prop :=
  (∃ sock, calls.socket = .ok sock) ∧ calls.bind = .ok () ∧ calls.listen = .ok ()

/-- The descriptor of a socket that was created, bound to the port, put in the
listening state and not closed. -/
def Listening (sock port : Int) (acts : List Act) : Prop :=
  [.created sock, .bound sock port, .listening sock].Sublist acts ∧ .socketClosed sock ∉ acts

theorem initConnection_invalid (calls : SocketCalls) {port : Int}
    (hport : port < 1 ∨ port > 65000) : initConnection calls port = (-1, []) := if_pos hport

/-- When every call succeeds the socket listens, and its descriptor is returned. -/
theorem initConnection_listens {calls : SocketCalls} {port : Int}
    (hport : ¬ (port < 1 ∨ port > 65000)) (hcalls : calls.Succeed) :
    Listening (initConnection calls port).1 port (initConnection calls port).2 := by
  obtain ⟨⟨sock, hsocket⟩, hbind, hlisten⟩ := hcalls
  have hhtons : htons port = port := Int.emod_eq_of_lt (by omega) (by omega)
  rw [initConnection, if_neg hport, hsocket, hbind, hlisten]
  dsimp only
  rw [hhtons]
  refine ⟨List.Sublist.refl _, ?_⟩
  simp

/-- When a call fails the value of `errno` is returned, and no socket is left
listening. -/
theorem initConnection_fails {calls : SocketCalls} {port : Int}
    (hport : ¬ (port < 1 ∨ port > 65000)) (hcalls : ¬ calls.Succeed) :
    0 < (initConnection calls port).1 ∧
      ∀ sock, .listening sock ∉ (initConnection calls port).2 := by
  rw [initConnection, if_neg hport]
  cases hsocket : calls.socket with
  | error errno => exact ⟨errno.pos, by simp⟩
  | ok sock =>
      cases hbind : calls.bind with
      | error errno => exact ⟨errno.pos, by simp⟩
      | ok _ =>
          cases hlisten : calls.listen with
          | error errno => exact ⟨errno.pos, by simp⟩
          | ok _ => exact absurd ⟨⟨sock, hsocket⟩, hbind, hlisten⟩ hcalls

/-! ## Main result -/

/-- With a device that passes the checks, the loop is entered on a socket that
listens on the port, or else the device is closed and 1 is returned. -/
def StartsListening (conf : Conf) (dm : DataModel) (clock : Nat → Int) (device : DeviceCalls)
    (calls : SocketCalls) : Prop :=
  device.fd ≠ 0 → deviceChecks device = true →
    match mainDemonized conf dm clock device calls with
    | (.serving cfg, acts) => Listening cfg.sock conf.port acts
    | (.returned status, acts) => status = 1 ∧ acts.getLast? = some .irClosed

/-- What `main_demonized` makes of the value of `init_connection`. -/
theorem startsListening_init (conf : Conf) (dm : DataModel) (clock : Nat → Int)
    {device : DeviceCalls} (calls : SocketCalls) (hfd : device.fd ≠ 0)
    (hchecks : deviceChecks device = true) :
    StartsListening conf dm clock device calls ↔
      (initConnection calls conf.port).1 ≤ 0 ∨
        Listening (initConnection calls conf.port).1 conf.port
          (initConnection calls conf.port).2 := by
  have hpass : ¬ deviceChecks device = false := by
    rw [hchecks]
    exact Bool.noConfusion
  have hstart : mainDemonized conf dm clock device calls =
      if (initConnection calls conf.port).1 ≤ 0 then
        (.returned 1, (initConnection calls conf.port).2 ++ [.irClosed])
      else (.serving ⟨device.fd, (initConnection calls conf.port).1, conf.starfrit ≠ 0, dm, clock⟩,
        (initConnection calls conf.port).2) := by
    rw [mainDemonized, if_neg hfd, if_neg hpass]
  by_cases hsock : (initConnection calls conf.port).1 ≤ 0
  · rw [StartsListening, hstart, if_pos hsock]
    exact ⟨fun _ => .inl hsock, fun _ _ _ => ⟨rfl, List.getLast?_concat⟩⟩
  · rw [StartsListening, hstart, if_neg hsock]
    exact ⟨fun h => .inr (h hfd hchecks), fun h _ _ => h.resolve_left hsock⟩

/-- The outcomes with which the loop starts only on a listening socket: the device
is refused, the port is not one to serve, or no call fails. -/
theorem startsListening_iff (conf : Conf) (dm : DataModel) (clock : Nat → Int)
    (device : DeviceCalls) (calls : SocketCalls) :
    StartsListening conf dm clock device calls ↔
      (device.fd = 0 ∨ deviceChecks device = false) ∨ (conf.port < 1 ∨ conf.port > 65000) ∨
        calls.Succeed := by
  by_cases hdevice : device.fd = 0 ∨ deviceChecks device = false
  · refine ⟨fun _ => .inl hdevice, fun _ hfd hchecks => ?_⟩
    rcases hdevice with hzero | hrefused
    · exact absurd hzero hfd
    · rw [hrefused] at hchecks
      cases hchecks
  · obtain ⟨hfd, hchecks⟩ := not_or.mp hdevice
    rw [startsListening_init conf dm clock calls hfd (Bool.eq_true_of_not_eq_false hchecks)]
    by_cases hport : conf.port < 1 ∨ conf.port > 65000
    · rw [initConnection_invalid calls hport]
      exact ⟨fun _ => .inr (.inl hport), fun _ => .inl (by decide)⟩
    · by_cases hcalls : calls.Succeed
      · exact ⟨fun _ => .inr (.inr hcalls), fun _ => .inr (initConnection_listens hport hcalls)⟩
      · obtain ⟨hpos, hnone⟩ := initConnection_fails hport hcalls
        constructor
        · rintro (hsock | ⟨hlisten, _⟩)
          · omega
          · have hmem := hlisten.subset
              (List.mem_cons_of_mem _ (List.mem_cons_of_mem _ List.mem_cons_self))
            exact absurd hmem (hnone _)
        · rintro (h | h | h)
          · exact absurd h hdevice
          · exact absurd h hport
          · exact absurd h hcalls

/-- `EADDRINUSE`. -/
def addressInUse : Errno := ⟨98, by decide⟩

/-- A device that speaks mode2, with descriptor 3. -/
def mode2Device : DeviceCalls := ⟨3, some .chr, some .chr, some lircModeMode2⟩

/-- Port 8000 is taken: the loop starts on descriptor 98. -/
theorem startsListening_fails :
    ¬ StartsListening Conf.start .ilp32 (fun _ => 0) mode2Device
      ⟨.ok 4, .error addressInUse, .ok ()⟩ := by
  intro hstarts
  obtain ⟨hlisten, _⟩ := hstarts (by decide) (by decide)
  exact absurd (hlisten.subset List.mem_cons_self) (by decide)

end IrBridge.Daemon
