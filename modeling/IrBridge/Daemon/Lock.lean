/-
  Daemon/Lock.lean --- `irbrgd start` and `irbrgd stop`, from several terminals.

  `start` asks `getPID` whether a daemon holds the lock, and forks; the child
  takes the lock or exits.  Between the question and the lock another `start` may
  do the same, so the question decides nothing: it is the lock that keeps a second
  daemon out.  A process whose parent is `init` returns from `daemonize` at once
  and serves without the lock.

  The processes run in any order and may die anywhere.  The lock is a record lock
  on the whole of `LOCK_FILE`: it is not inherited by `fork`, and the system takes
  it back from a process that ends.
-/
import Mathlib.Logic.Function.Basic
import IrBridge.Foundation.Transition

set_option autoImplicit false

namespace IrBridge.Daemon

open IrBridge.Foundation

/-! ## Processes -/

/-- Where a process of `irbrgd` is. -/
inductive Stage where
  /-- `irbrgd start`, before `getPID` -/
  | starting
  /-- what `getPID` returned to `irbrgd start` -/
  | probed (pid : Int)
  /-- the child of `fork` in `daemonize`, before `lockf` -/
  | forked
  /-- in `main_demonized`, with or without the lock -/
  | serving (locked : Bool)
  /-- `irbrgd stop`, before `getPID` -/
  | stopping
  /-- what `getPID` returned to `irbrgd stop` -/
  | asked (pid : Int)
  deriving DecidableEq

/-- The processes, and the one that holds the lock on `LOCK_FILE`. -/
structure Processes where
  stage : Int → Option Stage
  holder : Option Int

/-- Nobody is there. -/
def Processes.start : Processes := ⟨fun _ => none, none⟩

/-- What a process does. -/
inductive ProcessEvent where
  | starts (pid : Int)
  | stops (pid : Int)
  /-- `getPID` returns -/
  | probes (pid answer : Int)
  /-- `getppid()==1`, already a daemon -/
  | bypasses (pid : Int)
  | forks (pid child : Int)
  /-- `lockf` succeeds -/
  | locks (pid : Int)
  /-- `kill(target, SIGHUP)` -/
  | signals (pid target : Int)
  /-- `exit`, a `return` from `main`, or a signal that kills -/
  | exits (pid : Int)
  deriving DecidableEq

/-- `getPID`: whether `open` and `fcntl` succeed, and what `F_GETLK` finds.  The
lock that is asked for conflicts with that of another process. -/
def getPID (opened asked : Bool) (holder : Option Int) (self : Int) : Int :=
  if opened = false then -1
  else if asked = false then -2
  else
    match holder with
    | none => -3
    | some pid => if pid = self then -3 else pid

namespace Processes

/-- A process goes on. -/
def move (s : Processes) (pid : Int) (stage : Stage) : Processes :=
  { s with stage := Function.update s.stage pid (some stage) }

/-- A process ends, and its lock with it. -/
def exit (s : Processes) (pid : Int) : Processes where
  stage := Function.update s.stage pid none
  holder := if s.holder = some pid then none else s.holder

/-- What can happen next. -/
inductive Step : Processes → ProcessEvent → Processes → Prop where
  | starts {s : Processes} {pid : Int} (hpid : 1 ≤ pid) (hfree : s.stage pid = none) :
      Step s (.starts pid) (s.move pid .starting)
  | stops {s : Processes} {pid : Int} (hpid : 1 ≤ pid) (hfree : s.stage pid = none) :
      Step s (.stops pid) (s.move pid .stopping)
  | probesStart {s : Processes} {pid : Int} (opened asked : Bool)
      (hstage : s.stage pid = some .starting) :
      Step s (.probes pid (getPID opened asked s.holder pid))
        (s.move pid (.probed (getPID opened asked s.holder pid)))
  | probesStop {s : Processes} {pid : Int} (opened asked : Bool)
      (hstage : s.stage pid = some .stopping) :
      Step s (.probes pid (getPID opened asked s.holder pid))
        (s.move pid (.asked (getPID opened asked s.holder pid)))
  /-- `daemonize` returns at once -/
  | bypasses {s : Processes} {pid answer : Int} (hstage : s.stage pid = some (.probed answer))
      (hanswer : answer < 1) : Step s (.bypasses pid) (s.move pid (.serving false))
  /-- the parent exits, the child goes on -/
  | forks {s : Processes} {pid child answer : Int}
      (hstage : s.stage pid = some (.probed answer)) (hanswer : answer < 1)
      (hchild : 1 ≤ child) (hfree : s.stage child = none) :
      Step s (.forks pid child) ((s.exit pid).move child .forked)
  /-- `lockf` with `F_TLOCK` -/
  | locks {s : Processes} {pid : Int} (hstage : s.stage pid = some .forked)
      (hfree : s.holder = none ∨ s.holder = some pid) :
      Step s (.locks pid) { s.move pid (.serving true) with holder := some pid }
  | signals {s : Processes} {pid target : Int} (hstage : s.stage pid = some (.asked target))
      (htarget : 1 ≤ target) : Step s (.signals pid target) (s.exit pid)
  /-- every failure ends the process, and so may a signal, anywhere -/
  | exits {s : Processes} {pid : Int} {stage : Stage} (hstage : s.stage pid = some stage) :
      Step s (.exits pid) (s.exit pid)

end Processes

/-! ## Who holds the lock -/

namespace Processes

/-- The lock is held by the daemon that took it, as long as it lives. -/
structure LockInvariant (s : Processes) : Prop where
  pids : ∀ pid stage, s.stage pid = some stage → 1 ≤ pid
  holder_iff : ∀ pid, s.holder = some pid ↔ s.stage pid = some (.serving true)

theorem move_stage (s : Processes) (pid : Int) (stage : Stage) (p : Int) :
    (s.move pid stage).stage p = if p = pid then some stage else s.stage p :=
  Function.update_apply ..

theorem exit_stage (s : Processes) (pid p : Int) :
    (s.exit pid).stage p = if p = pid then none else s.stage p :=
  Function.update_apply ..

theorem LockInvariant.start : LockInvariant Processes.start where
  pids := by simp [Processes.start]
  holder_iff := by simp [Processes.start]

/-- A process without the lock goes on without it. -/
theorem LockInvariant.move {s : Processes} (h : LockInvariant s) {pid : Int} (hpid : 1 ≤ pid)
    {stage : Stage} (hwas : s.stage pid ≠ some (.serving true))
    (hstage : stage ≠ .serving true) : LockInvariant (s.move pid stage) where
  pids := by
    intro p st hp
    rw [move_stage] at hp
    split at hp
    · rename_i heq
      exact heq ▸ hpid
    · exact h.pids p st hp
  holder_iff := by
    intro p
    rw [move_stage]
    show s.holder = some p ↔ _
    split
    · rename_i heq
      rw [h.holder_iff p, heq]
      exact iff_of_false hwas fun hsome => hstage (Option.some.inj hsome)
    · exact h.holder_iff p

theorem LockInvariant.exit {s : Processes} (h : LockInvariant s) (pid : Int) :
    LockInvariant (s.exit pid) where
  pids := by
    intro p st hp
    rw [exit_stage] at hp
    split at hp
    · cases hp
    · exact h.pids p st hp
  holder_iff := by
    intro p
    rw [exit_stage]
    show (if s.holder = some pid then none else s.holder) = some p ↔ _
    by_cases hp : p = pid
    · rw [if_pos hp, hp]
      refine iff_of_false ?_ (by simp)
      split
      · simp
      · assumption
    · rw [if_neg hp, ← h.holder_iff p]
      split
      · rename_i hheld
        rw [hheld]
        exact iff_of_false (by simp) fun hsome => hp (Option.some.inj hsome).symm
      · exact Iff.rfl

/-- The child that is granted the lock serves with it. -/
theorem LockInvariant.lock {s : Processes} (h : LockInvariant s) {pid : Int}
    (hstage : s.stage pid = some .forked) (hfree : s.holder = none ∨ s.holder = some pid) :
    LockInvariant { s.move pid (.serving true) with holder := some pid } where
  pids := by
    intro p st hp
    change (s.move pid (.serving true)).stage p = some st at hp
    rw [move_stage] at hp
    split at hp
    · rename_i heq
      exact heq ▸ h.pids pid .forked hstage
    · exact h.pids p st hp
  holder_iff := by
    intro p
    change some pid = some p ↔ (s.move pid (.serving true)).stage p = some (.serving true)
    rw [move_stage]
    by_cases hp : p = pid
    · rw [if_pos hp, hp]
      exact iff_of_true rfl rfl
    · rw [if_neg hp, ← h.holder_iff p]
      refine iff_of_false (fun hsome => hp (Option.some.inj hsome).symm) ?_
      rcases hfree with hnone | hown
      · rw [hnone]
        simp
      · -- A forked child holds no lock.
        have hserving := (h.holder_iff pid).mp hown
        rw [hstage] at hserving
        cases hserving

/-- `getPID` returns the holder of the lock, or an error. -/
theorem getPID_cases (opened asked : Bool) (holder : Option Int) (self : Int) :
    getPID opened asked holder self < 1 ∨
      holder = some (getPID opened asked holder self) := by
  unfold getPID
  split
  · exact .inl (by decide)
  · split
    · exact .inl (by decide)
    · cases holder with
      | none => exact .inl (show (-3 : Int) < 1 by decide)
      | some pid =>
          dsimp only
          split
          · exact .inl (by decide)
          · exact .inr rfl

/-- Every step keeps the invariant. -/
theorem LockInvariant.step {s s' : Processes} {what : ProcessEvent} (h : LockInvariant s)
    (hstep : Step s what s') : LockInvariant s' := by
  cases hstep with
  | starts hpid hfree => exact h.move hpid (by simp [hfree]) (by simp)
  | stops hpid hfree => exact h.move hpid (by simp [hfree]) (by simp)
  | probesStart _ _ hstage => exact h.move (h.pids _ _ hstage) (by simp [hstage]) (by simp)
  | probesStop _ _ hstage => exact h.move (h.pids _ _ hstage) (by simp [hstage]) (by simp)
  | bypasses hstage _ => exact h.move (h.pids _ _ hstage) (by simp [hstage]) (by simp)
  | @forks pid child _ _ _ hchild hfree =>
      refine (h.exit pid).move hchild ?_ (by simp)
      rw [exit_stage]
      split
      · simp
      · simp [hfree]
  | locks hstage hfree => exact h.lock hstage hfree
  | signals _ _ => exact h.exit _
  | exits _ => exact h.exit _

end Processes

/-! ## Runs -/

namespace Processes

/-- At some moment of the run `getPID` answered `pid` with the daemon that then
served with the lock. -/
def Answered (trace : List ProcessEvent) (pid answer : Int) : Prop :=
  ∃ before after s, trace = before ++ .probes pid answer :: after ∧
    Steps Step Processes.start before s ∧ s.stage answer = some (.serving true)

/-- What holds of every run of `start`s and `stop`s. -/
structure SingleInstance (trace : List ProcessEvent) (s : Processes) : Prop where
  /-- one daemon at most serves with the lock -/
  exclusive : ∀ pid pid', s.stage pid = some (.serving true) →
    s.stage pid' = some (.serving true) → pid = pid'
  /-- and no other serves, unless `init` started it -/
  unlocked : ∀ pid, s.stage pid = some (.serving false) → .bypasses pid ∈ trace
  /-- a child that asks for the lock is refused only while a daemon serves with
  it; a lock file left behind is no obstacle -/
  granted : ∀ pid, s.stage pid = some .forked →
    (∀ pid', s.stage pid' ≠ some (.serving true)) → ∃ s', Step s (.locks pid) s'
  /-- what `stop` signals was the daemon with the lock when it asked -/
  signalled : ∀ pid target, .signals pid target ∈ trace → Answered trace pid target

/-- What the stages remember of the run. -/
structure History (trace : List ProcessEvent) (s : Processes) : Prop where
  unlocked : ∀ pid, s.stage pid = some (.serving false) → .bypasses pid ∈ trace
  asked : ∀ pid answer, s.stage pid = some (.asked answer) → 1 ≤ answer →
    Answered trace pid answer
  signalled : ∀ pid target, .signals pid target ∈ trace → Answered trace pid target

theorem Answered.snoc {trace : List ProcessEvent} {pid answer : Int}
    (h : Answered trace pid answer) (what : ProcessEvent) :
    Answered (trace ++ [what]) pid answer := by
  obtain ⟨before, after, s, rfl, hrun, hserving⟩ := h
  exact ⟨before, after ++ [what], s, by simp, hrun, hserving⟩

theorem History.start : History [] Processes.start where
  unlocked := by simp [Processes.start]
  asked := by simp [Processes.start]
  signalled := by simp

/-- A step that puts nobody into `serving false` or `asked`, and signals
nobody. -/
theorem History.keep {trace : List ProcessEvent} {s s' : Processes} (h : History trace s)
    {what : ProcessEvent} (hwhat : ∀ pid target, what ≠ .signals pid target)
    (hunlocked : ∀ p, s'.stage p = some (.serving false) → s.stage p = some (.serving false))
    (hasked : ∀ p answer, s'.stage p = some (.asked answer) →
      s.stage p = some (.asked answer)) : History (trace ++ [what]) s' where
  unlocked := by
    intro p hp
    exact List.mem_append_left _ (h.unlocked p (hunlocked p hp))
  asked := by
    intro p answer hp hpos
    exact (h.asked p answer (hasked p answer hp) hpos).snoc what
  signalled := by
    intro pid target hmem
    rcases List.mem_append.mp hmem with hmem | hmem
    · exact (h.signalled pid target hmem).snoc what
    · exact absurd (List.mem_singleton.mp hmem).symm (hwhat pid target)

/-- A stage that is seen after a move was there before, unless it is the new
one. -/
theorem stage_of_move {s : Processes} {pid p : Int} {stage st : Stage} (hne : stage ≠ st)
    (hp : (s.move pid stage).stage p = some st) : s.stage p = some st := by
  rw [move_stage] at hp
  split at hp
  · exact absurd (Option.some.inj hp) hne
  · exact hp

theorem stage_of_exit {s : Processes} {pid p : Int} {st : Stage}
    (hp : (s.exit pid).stage p = some st) : s.stage p = some st := by
  rw [exit_stage] at hp
  split at hp
  · cases hp
  · exact hp

theorem History.move {trace : List ProcessEvent} {s : Processes} (h : History trace s)
    {what : ProcessEvent} (hwhat : ∀ pid target, what ≠ .signals pid target) (pid : Int)
    {stage : Stage} (hunlocked : stage ≠ .serving false) (hasked : ∀ a, stage ≠ .asked a) :
    History (trace ++ [what]) (s.move pid stage) :=
  h.keep hwhat (fun _ hp => stage_of_move hunlocked hp)
    fun _ answer hp => stage_of_move (hasked answer) hp

theorem History.step {trace : List ProcessEvent} {s s' : Processes} {what : ProcessEvent}
    (hrun : Steps Step Processes.start trace s) (hlock : LockInvariant s)
    (h : History trace s) (hstep : Step s what s') : History (trace ++ [what]) s' := by
  cases hstep with
  | starts _ _ => exact h.move (by simp) _ (by simp) (by simp)
  | stops _ _ => exact h.move (by simp) _ (by simp) (by simp)
  | probesStart _ _ _ => exact h.move (by simp) _ (by simp) (by simp)
  | @probesStop pid opened asked hstage =>
      refine ⟨fun p hp => ?_, fun p answer hp hpos => ?_, fun p target hmem => ?_⟩
      · exact List.mem_append_left _ (h.unlocked p (stage_of_move (by simp) hp))
      · rw [move_stage] at hp
        split at hp
        · rename_i heq
          obtain rfl := Stage.asked.inj (Option.some.inj hp)
          -- The holder of the lock is the daemon that serves with it.
          have hholder := (getPID_cases opened asked s.holder pid).resolve_left (by omega)
          have hserving := (hlock.holder_iff _).mp hholder
          exact ⟨trace, [], s, by rw [heq], hrun, hserving⟩
        · exact (h.asked p answer hp hpos).snoc _
      · rcases List.mem_append.mp hmem with hmem | hmem
        · exact (h.signalled p target hmem).snoc _
        · simp at hmem
  | @bypasses pid _ _ _ =>
      refine ⟨fun p hp => ?_, fun p answer hp hpos => ?_, fun p target hmem => ?_⟩
      · rw [move_stage] at hp
        split at hp
        · rename_i heq
          rw [heq]
          exact List.mem_append_right _ (List.mem_singleton_self _)
        · exact List.mem_append_left _ (h.unlocked p hp)
      · exact (h.asked p answer (stage_of_move (by simp) hp) hpos).snoc _
      · rcases List.mem_append.mp hmem with hmem | hmem
        · exact (h.signalled p target hmem).snoc _
        · simp at hmem
  | forks _ _ _ _ =>
      refine h.keep (by simp) (fun p hp => ?_) fun p answer hp => ?_
      · exact stage_of_exit (stage_of_move (by simp) hp)
      · exact stage_of_exit (stage_of_move (by simp) hp)
  | locks _ _ =>
      exact h.keep (by simp) (fun _ hp => stage_of_move (by simp) hp)
        fun _ _ hp => stage_of_move (by simp) hp
  | @signals pid target hstage htarget =>
      refine ⟨fun p hp => ?_, fun p answer hp hpos => ?_, fun p answer hmem => ?_⟩
      · exact List.mem_append_left _ (h.unlocked p (stage_of_exit hp))
      · exact (h.asked p answer (stage_of_exit hp) hpos).snoc _
      · rcases List.mem_append.mp hmem with hmem | hmem
        · exact (h.signalled p answer hmem).snoc _
        · obtain ⟨rfl, rfl⟩ := ProcessEvent.signals.inj (List.mem_singleton.mp hmem)
          exact (h.asked _ _ hstage htarget).snoc _
  | exits _ => exact h.keep (by simp) (fun _ hp => stage_of_exit hp) fun _ _ hp => stage_of_exit hp

theorem LockInvariant.single {trace : List ProcessEvent} {s : Processes} (h : LockInvariant s)
    (hhistory : History trace s) : SingleInstance trace s where
  exclusive := by
    intro pid pid' hpid hpid'
    rw [← h.holder_iff] at hpid hpid'
    exact Option.some.inj (hpid.symm.trans hpid')
  unlocked := hhistory.unlocked
  granted := by
    intro pid hstage hnobody
    refine ⟨_, .locks hstage (.inl ?_)⟩
    cases hholder : s.holder with
    | none => rfl
    | some pid' => exact absurd ((h.holder_iff pid').mp hholder) (hnobody pid')
  signalled := hhistory.signalled

end Processes

/-- However many `start`s and `stop`s run, in whatever order their steps are
taken and wherever they die: one daemon at most serves with the lock, one without
it was started by `init`, a lock file left behind keeps nobody out, and `stop`
signals the process that was the daemon when `getPID` asked. -/
theorem single_instance {trace : List ProcessEvent} {s : Processes}
    (hrun : Steps Processes.Step Processes.start trace s) : Processes.SingleInstance trace s := by
  have hboth : Steps Processes.Step Processes.start trace s ∧ s.LockInvariant ∧
      Processes.History trace s := by
    refine hrun.invariant (fun trace s => Steps Processes.Step Processes.start trace s ∧
      s.LockInvariant ∧ Processes.History trace s) ⟨.refl, .start, .start⟩ ?_
    intro trace s what s' hinv hstep
    obtain ⟨hbefore, hlock, hhistory⟩ := hinv
    exact ⟨hbefore.snoc hstep, hlock.step hstep, hhistory.step hbefore hlock hstep⟩
  exact hboth.2.1.single hboth.2.2

/-- Two `start`s ask before either has the lock; the first child gets it. -/
def race : List ProcessEvent :=
  [.starts 10, .starts 11, .probes 10 (-1), .probes 11 (-1), .forks 10 12, .forks 11 13,
    .locks 12, .exits 13, .stops 14, .probes 14 12, .signals 14 12]

theorem single_instance_race : ∃ s, Processes.SingleInstance race s := by
  have hrun : ∃ s, Steps Processes.Step Processes.start race s := by
    refine ⟨_, .cons (.starts (by decide) rfl) <| .cons (.starts (by decide) rfl) <|
      .cons (.probesStart false false rfl) <| .cons (.probesStart false false rfl) <|
      .cons (.forks rfl (by decide) (by decide) rfl) <|
      .cons (.forks rfl (by decide) (by decide) rfl) <|
      .cons (.locks rfl (.inl rfl)) <| .cons (.exits rfl) <| .cons (.stops (by decide) rfl) <|
      .cons (.probesStop true true rfl) <| .cons (.signals rfl (by decide)) .refl⟩
  obtain ⟨s, hrun⟩ := hrun
  exact ⟨s, single_instance hrun⟩

end IrBridge.Daemon
