/-
  Client/Activity.lean --- the activity of the Android client and its threads.

  A click on the button starts a network thread, the next one asks it to stop.
  The thread works on its own; what it has for the screen it posts to the thread
  of the screen, which runs one posted task after another, between clicks.  The
  activity notes the thread in `mTCP` and forgets it when its last task is run.
-/
import IrBridge.Client.Android
import Mathlib.Logic.Function.Basic

set_option autoImplicit false

namespace IrBridge.Client

open IrBridge.Foundation
open IrBridge.Codec
open IrBridge.Platform
open IrBridge.Scale

/-! ## The activity and its threads -/

/-- Where a network thread stands in `run`. -/
inductive Stage where
  /-- not started yet, or returned -/
  | gone
  /-- before the socket is connected -/
  | connecting
  /-- at the loop condition -/
  | loop
  /-- before `if (in.available()>0)` -/
  | rx
  /-- before `if (mOutByte!=null)` -/
  | tx
  /-- behind the loop -/
  | closing
  deriving DecidableEq, Repr

/-- A network thread. -/
structure NetThread where
  stage : Stage
  done : Bool
  deriving DecidableEq

/-- What a network thread posts with `runOnUiThread`. -/
inductive Task where
  | threadStart (k : Nat)
  | dataReceived (k : Nat) (received : Received)
  | threadEnd (k : Nat)

/-- The text of the button. -/
inductive ButtonText where
  | connect
  | disconnect
  deriving DecidableEq

/-- `mTxtInformation`. -/
inductive Information where
  /-- `Off line`, white on black -/
  | offLine
  /-- `...Kg`, black on white -/
  | waiting
  /-- a weight, in its color -/
  | weight (color : BitVec 32) (weight : Rat)
  deriving DecidableEq

/-- What `OnDataReceived` leaves there. -/
def Information.after (info : Information) (new : List Displayed) : Information :=
  (new.flatMap Displayed.events).foldl
    (fun info event =>
      match event with
      | .text color kg => .weight color kg
      | .logError _ => info) info

/-- The activity, with the threads it has started and the tasks that wait for the
thread of the screen. -/
structure Activity where
  started : Nat
  thread : Nat → NetThread
  mTCP : Option Nat
  queue : List Task
  button : ButtonText
  info : Information
  decoder : DecodeState
  shown : List Displayed
  fault : Option Fault

/-- `onCreate`. -/
def Activity.start : Activity :=
  ⟨0, fun _ => ⟨.gone, false⟩, none, [], .connect, .offLine, DecodeState.start, [], none⟩

/-- Thread `k` moves on and posts what it has. -/
def Activity.move (a : Activity) (k : Nat) (t : NetThread) (posted : List Task) : Activity :=
  { a with thread := Function.update a.thread k t, queue := a.queue ++ posted }

/-- `tcpstop`. -/
def Activity.tcpstop (a : Activity) : Activity :=
  match a.mTCP with
  | none => { a with button := .connect }
  | some k =>
      { a with
        button := .connect
        thread := Function.update a.thread k { a.thread k with done := true } }

theorem Activity.tcpstop_of_some {a : Activity} {k : Nat} (hk : a.mTCP = some k) :
    a.tcpstop =
      { a with
        button := .connect
        thread := Function.update a.thread k { a.thread k with done := true } } := by
  rw [Activity.tcpstop, hk]

/-- `onClick` of the button. -/
def Activity.onClick (a : Activity) : Activity :=
  match a.mTCP with
  | none =>
      { a with
        button := .disconnect
        started := a.started + 1
        thread := Function.update a.thread a.started ⟨.connecting, false⟩
        mTCP := some a.started }
  | some _ => a.tcpstop

/-- `OnThreadStart`, `OnDataReceived` and `OnThreadEnd`. -/
def Activity.runTask (dm : DataModel) (a : Activity) : Task → Activity
  | .threadStart _ => { a with info := .waiting, decoder := unkn0DecodeReset a.decoder }
  | .dataReceived _ received =>
      match onDataReceived dm received (a.decoder, []) with
      | .error fault => { a with fault := some fault }
      | .ok (decoder, new) =>
          { a with decoder := decoder, shown := a.shown ++ new, info := a.info.after new }
  | .threadEnd _ => { a.tcpstop with mTCP := none, info := .offLine }

/-- `BUFF_SIZE`. -/
def buffSize : Nat := 1024 * 1024

/-- What happens, one atomic step each. -/
inductive Action where
  /-- the button is clicked -/
  | clicked
  /-- the activity is destroyed -/
  | destroyed
  /-- the thread of the screen runs the first task that waits -/
  | ran (task : Task)
  /-- the socket is connected -/
  | connected (k : Nat)
  /-- it is not -/
  | refused (k : Nat)
  /-- the loop condition holds or fails -/
  | tested (k : Nat)
  /-- bytes have been read -/
  | received (k : Nat) (received : Received)
  /-- there are none -/
  | nothing (k : Nat)
  /-- the transmit branch has ended -/
  | transmitted (k : Nat)
  /-- an `IOException` in the body of the loop -/
  | failed (k : Nat)
  /-- the socket is closed -/
  | closed (k : Nat)

/-- The steps of both sides, while nothing went wrong.  `socket.isConnected()`
stays true once the socket was connected. -/
inductive Activity.Step (dm : DataModel) (a : Activity) : Action → Activity → Prop where
  | clicked (hfault : a.fault = none) : Step dm a .clicked a.onClick
  | destroyed (hfault : a.fault = none) : Step dm a .destroyed a.tcpstop
  | ran (hfault : a.fault = none) {task : Task} {rest : List Task}
      (hqueue : a.queue = task :: rest) :
      Step dm a (.ran task) (({ a with queue := rest } : Activity).runTask dm task)
  | connected (hfault : a.fault = none) {k : Nat} {done : Bool}
      (hthread : a.thread k = ⟨.connecting, done⟩) :
      Step dm a (.connected k) (a.move k ⟨.loop, done⟩ [.threadStart k])
  | refused (hfault : a.fault = none) {k : Nat} {done : Bool}
      (hthread : a.thread k = ⟨.connecting, done⟩) :
      Step dm a (.refused k) (a.move k ⟨.gone, done⟩ [.threadEnd k])
  | tested (hfault : a.fault = none) {k : Nat} {done : Bool}
      (hthread : a.thread k = ⟨.loop, done⟩) :
      Step dm a (.tested k) (a.move k ⟨if done then .closing else .rx, done⟩ [])
  | received (hfault : a.fault = none) {k : Nat} {done : Bool}
      (hthread : a.thread k = ⟨.rx, done⟩) (received : Received) (hsome : 0 < received.sz)
      (hsize : received.sz ≤ buffSize) (hcopy : received.data.length = received.sz) :
      Step dm a (.received k received) (a.move k ⟨.tx, done⟩ [.dataReceived k received])
  | nothing (hfault : a.fault = none) {k : Nat} {done : Bool}
      (hthread : a.thread k = ⟨.rx, done⟩) :
      Step dm a (.nothing k) (a.move k ⟨.tx, done⟩ [])
  | transmitted (hfault : a.fault = none) {k : Nat} {done : Bool}
      (hthread : a.thread k = ⟨.tx, done⟩) :
      Step dm a (.transmitted k) (a.move k ⟨.loop, done⟩ [])
  | failed (hfault : a.fault = none) {k : Nat} {stage : Stage} {done : Bool}
      (hthread : a.thread k = ⟨stage, done⟩) (hbody : stage = .rx ∨ stage = .tx) :
      Step dm a (.failed k) (a.move k ⟨.loop, true⟩ [])
  | closed (hfault : a.fault = none) {k : Nat} {done : Bool}
      (hthread : a.thread k = ⟨.closing, done⟩) :
      Step dm a (.closed k) (a.move k ⟨.gone, done⟩ [.threadEnd k])

end IrBridge.Client
