/-
  Daemon/Launch.lean --- from the configuration file to the commands.

  `irbrgd start` reads the configuration, sets up the targets of the scale when it
  is on, and goes into `main_demonized`.  What the daemon then does on its own is
  run commands, and as long as it is in its loop these are determined by the file
  and by the words that the device is heard to say, whatever the clients do.
-/
import IrBridge.Config.Settings
import IrBridge.Daemon.Live
import IrBridge.Daemon.Startup

set_option autoImplicit false

namespace IrBridge.Daemon

open IrBridge.Foundation
open IrBridge.Codec
open IrBridge.Config
open IrBridge.Platform
open IrBridge.Scale

/-! ## `irbrgd start` -/

/-- What goes wrong before `main_demonized`. -/
inductive LaunchFault where
  | readconf (fault : ConfFault)
  | setup (fault : SetupFault)

/-- What the process that serves has made on its way. -/
structure Launched (F : Type) where
  conf : Conf
  setup : Option (Setup F)
  startup : Startup × List Act

section Launch

variable {F : Type} [Zero F] [LT F] [DecidableLT F]

/-- `if (conf.starfrit) starfrit_setup(conf.led, conf.starfrit_args);` -/
def setupScale (dm : DataModel) (atof : List Char → F) (conf : Conf) :
    Except SetupFault (Option (Setup F)) :=
  if conf.starfrit ≠ 0 then
    (starfritSetup dm atof Targets.start conf.led
      (some (CString.ofBuffer conf.starfritArgs))).map some
  else .ok none

/-- The `start` of `main`, in the process that `daemonize` leaves. -/
def launch (dm : DataModel) (atof : List Char → F) (clock : Nat → Int) (file : Option CString)
    (device : DeviceCalls) (calls : SocketCalls) : Except LaunchFault (Launched F) := do
  let conf ← (readconf dm file).mapError .readconf
  let setup ← (setupScale dm atof conf).mapError .setup
  return ⟨conf, setup, mainDemonized conf dm clock device calls⟩

/-! ## Text from the file -/

/-- Text from a line fits `conf.starfrit_args`. -/
def FromLine (args : List Char) : Prop := args.length ≤ 254 ∧ ∀ c ∈ args, c ≠ '\x00'

theorem fromLine_of_makes {l : Line} {args : ArgText}
    (hmakes : l.makes = some (.starfritUrl args)) : FromLine args.chars := by
  obtain ⟨text, makes, hwrites, hshort, _, hnul⟩ := l
  cases hwrites with
  | remark _ => cases hmakes
  | @setting s lead gap trail _ _ _ _ =>
      obtain rfl := Option.some.inj hmakes
      have htext : args.chars.Sublist (lead ++ (Setting.words (.starfritUrl args) gap ++ trail)) :=
        ((List.sublist_append_right _ _).trans (List.sublist_append_right _ _)).trans
          ((List.sublist_append_left _ _).trans (List.sublist_append_right _ _))
      exact ⟨Nat.le_trans htext.length_le hshort, fun c hc => hnul c (htext.subset hc)⟩

/-- So does what is left of the settings of a file. -/
theorem fromLine_settings (lines : List Line) {conf : Conf} (hconf : FromLine conf.starfritArgs) :
    FromLine ((lines.filterMap Line.makes).foldl Setting.apply conf).starfritArgs := by
  induction lines generalizing conf with
  | nil => exact hconf
  | cons l lines ih =>
      cases hmakes : l.makes with
      | none =>
          rw [List.filterMap_cons_none hmakes]
          exact ih hconf
      | some s =>
          rw [List.filterMap_cons_some hmakes, List.foldl_cons]
          apply ih
          cases s with
          | port _ => exact hconf
          | led _ => exact hconf
          | starfrit _ => exact hconf
          | starfritUrl args => exact fromLine_of_makes hmakes

/-! ## Getting started -/

/-- The configuration a written file makes. -/
def confOf (lines : List Line) : Conf :=
  (lines.filterMap Line.makes).foldl Setting.apply Conf.start

/-- Reading it makes that. -/
theorem readconf_confOf (dm : DataModel) (lines : List Line) :
    readconf dm (some (fileOf lines)) = .ok (confOf lines) := by
  rw [readconf_view, piecesOf_fileOf, foldlM_sayStep_lines]
  rfl

/-- A scale that is on is set up with the targets of the file. -/
theorem setupScale_confOf (dm : DataModel) (atof : List Char → F) {lines : List Line}
    (hon : (confOf lines).starfrit ≠ 0) :
    ∃ done s, setupScale dm atof (confOf lines) = .ok (some s) ∧
      Progress atof (tokensOf (confOf lines).starfritArgs) done [] s := by
  obtain ⟨hshort, hnul⟩ : FromLine (confOf lines).starfritArgs :=
    fromLine_settings lines ⟨Nat.zero_le _, by simp [Conf.start]⟩
  have hargs := CString.ofBuffer_eq hnul
  have hlen : (CString.ofBuffer (confOf lines).starfritArgs).strlen ≤ 1023 := by
    rw [CString.strlen, hargs]
    omega
  obtain ⟨done, s, hsetup, hprogress⟩ :=
    starfrit_setup_progress atof dm (t := Targets.start) rfl (confOf lines).led hlen
  rw [hargs] at hprogress
  refine ⟨done, s, ?_, hprogress⟩
  rw [setupScale, if_pos hon, hsetup]
  rfl

/-- With a device and a network that are there, `main_demonized` gets into its
loop. -/
theorem mainDemonized_serving (conf : Conf) (dm : DataModel) (clock : Nat → Int)
    (hport : 1 ≤ conf.port ∧ conf.port ≤ 65000) {device : DeviceCalls} (hfd : device.fd ≠ 0)
    (hchecks : deviceChecks device = true) {calls : SocketCalls} {sock : Nat}
    (hsocket : calls.socket = .ok sock) (hpos : 0 < sock) (hbind : calls.bind = .ok ())
    (hlisten : calls.listen = .ok ()) :
    ∃ acts, mainDemonized conf dm clock device calls =
        (.serving ⟨device.fd, sock, conf.starfrit ≠ 0, dm, clock⟩, acts) ∧
      Listening sock conf.port acts := by
  have hvalid : ¬ (conf.port < 1 ∨ conf.port > 65000) := by omega
  have hlistening := initConnection_listens hvalid ⟨⟨sock, hsocket⟩, hbind, hlisten⟩
  have hinit : (initConnection calls conf.port).1 = sock := by
    rw [initConnection, if_neg hvalid, hsocket, hbind, hlisten]
  have hpass : ¬ deviceChecks device = false := by
    rw [hchecks]
    exact Bool.noConfusion
  rw [hinit] at hlistening
  refine ⟨(initConnection calls conf.port).2, ?_, hlistening⟩
  have hsock : ¬ (initConnection calls conf.port).1 ≤ 0 := by omega
  rw [mainDemonized, if_neg hfd, if_neg hpass]
  dsimp only
  rw [if_neg hsock, hinit]

/-! ## The result -/

variable [LE F] [DecidableLE F]

/-- The commands for what a daemon with these arguments has heard. -/
def commandsFor (clock : Nat → Int) (atof : List Char → F) (number : Rat → F) (args : List Char)
    (words : List LircT) : List (List Char) :=
  commandsOf atof number args
    (acceptedFrom (intClock clock) 0 (unkn0.wordMachine.run DecodeState.start words).2)

/-- With a device and a network that are there: the daemon serves on the port of
the file, and after every run that it has survived the commands it has run are
those for the targets of the file and the words it has heard. -/
theorem configured_daemon (dm : DataModel) (atof : List Char → F) (number : Rat → F)
    (hneg : ∀ a : F, a < 0 ∨ a = 0 → a ≤ 0) (clock : Nat → Int) {lines : List Line}
    (hport : 1 ≤ (confOf lines).port ∧ (confOf lines).port ≤ 65000)
    (hon : (confOf lines).starfrit ≠ 0)
    (hurls : ∀ x ∈ listedTargets (confOf lines).starfritArgs, x.2.2.length ≤ 222)
    {device : DeviceCalls} (hfd : device.fd ≠ 0) (hchecks : deviceChecks device = true)
    {calls : SocketCalls} {sock : Nat} (hsocket : calls.socket = .ok sock) (hpos : 0 < sock)
    (hbind : calls.bind = .ok ()) (hlisten : calls.listen = .ok ()) :
    ∃ s cfg acts,
      launch dm atof clock (some (fileOf lines)) device calls =
        .ok ⟨confOf lines, some s, .serving cfg, acts⟩ ∧
      cfg.sock = sock ∧ Listening sock (confOf lines).port acts ∧
      ∀ trace d,
        Steps (Live.Step cfg (pushMeasurementIn number s.scan.args s.targets)) Live.start trace d →
        d.Serving →
        d.run = commandsFor clock atof number (confOf lines).starfritArgs
          (heardWords trace.flatten) := by
  obtain ⟨done, s, hsetup, hprogress⟩ := setupScale_confOf dm atof hon
  obtain ⟨acts, hmain, hlistening⟩ := mainDemonized_serving (confOf lines) dm clock hport hfd
    hchecks hsocket hpos hbind hlisten
  refine ⟨s, ⟨device.fd, sock, (confOf lines).starfrit ≠ 0, dm, clock⟩, acts, ?_, rfl, hlistening,
    ?_⟩
  · simp only [launch, readconf_confOf, Except.mapError, ok_bind, hsetup, hmain, pure_eq_ok]
  · intro trace d hrun hserving
    obtain ⟨hbridge, hpushes⟩ := Live.run_bridge hrun hserving
    have hstarfrit := (run_decodes (decide_eq_true hon) hbridge hserving.2).starfrit_eq
    rw [hstarfrit] at hpushes
    exact Except.ok.inj (hpushes.symm.trans
      (hprogress.run_of_frames hneg number hurls (intClock clock) _))

end Launch

/-- A line with one blank between its words. -/
def plainLine (s : Setting) (hshort : (s.words [' ']).length ≤ 254)
    (hplain : ∀ c ∈ s.words [' '], c ≠ '\n' ∧ c ≠ '\x00') : Line where
  text := [] ++ (s.words [' '] ++ [])
  makes := some s
  writes := .setting s (by simp) (by simp [isBlank]) (List.cons_ne_nil _ _) (by simp)
  short := by rwa [List.nil_append, List.append_nil]
  oneLine := by
    rw [List.nil_append, List.append_nil]
    exact fun hmem => (hplain _ hmem).1 rfl
  noNul := by
    rw [List.nil_append, List.append_nil]
    exact fun c hc => (hplain c hc).2

/-- `0;0;http://x` -/
def plainTarget : ArgText :=
  .ofWord ['0', ';', '0', ';', 'h', 't', 't', 'p', ':', '/', '/', 'x'] (List.cons_ne_nil _ _)
    (by simp [isWhite, regular])

/-- Two settings. -/
def plainFile : List Line :=
  [plainLine (.starfrit true) (by decide)
      (by simp [Setting.words, Setting.key, Setting.args, ArgText.ofWord, keyStarfrit]),
    plainLine (.starfritUrl plainTarget) (by decide)
      (by simp [Setting.words, Setting.key, Setting.args, plainTarget, ArgText.ofWord,
        keyStarfritUrl])]

/-- A daemon on descriptor 4 and the default port. -/
theorem configured_daemon_default :
    ∃ s cfg acts,
      launch .ilp32 (fun _ => (0 : Rat)) (fun _ => 0) (some (fileOf plainFile)) mode2Device
          ⟨.ok 4, .ok (), .ok ()⟩ =
        .ok ⟨confOf plainFile, some s, .serving cfg, acts⟩ ∧
      cfg.sock = (4 : Nat) ∧ Listening (4 : Nat) (confOf plainFile).port acts ∧
      ∀ trace d,
        Steps (Live.Step cfg (pushMeasurementIn id s.scan.args s.targets)) Live.start trace d →
        d.Serving →
        d.run = commandsFor (fun _ => 0) (fun _ => (0 : Rat)) id (confOf plainFile).starfritArgs
          (heardWords trace.flatten) :=
  configured_daemon .ilp32 _ id (fun _ ha => ha.elim le_of_lt le_of_eq) _ (by decide) (by decide)
    (by decide +kernel) (by decide) (by decide) rfl (by decide) rfl rfl

end IrBridge.Daemon
