/-
  Client/TcpClient.lean --- the slot between the screen and the network thread.

  `send` stores an array in `mOutByte`; the loop of `run` tests the slot, writes
  the array it finds to the socket and sets the slot back to null.  The slot has
  no lock and holds one array.  An array stored while another one is still there
  replaces it before it is written, or is itself cleared without being written.

  `Account` counts: at every point of every run, what was sent has been written,
  is pending in the slot, or was lost, one array for each send that found the slot
  occupied.  The main result follows from it.
-/
import IrBridge.Foundation.Transition
import IrBridge.Platform.Types

set_option autoImplicit false

namespace IrBridge.Client

open IrBridge.Foundation
open IrBridge.Platform

/-! ## The two parties -/

/-- Where the network thread stands in the loop of `run`. -/
inductive Point where
  /-- at the loop condition -/
  | loop
  /-- before `if (mOutByte!=null)` -/
  | test
  /-- before `out.write(mOutByte);` -/
  | write
  /-- before `mOutByte = null;` -/
  | clear
  deriving DecidableEq, Repr

/-- `TCPClient`, and the arrays written to its socket. -/
structure TCPClient (α : Type) where
  mOutByte : Option α
  point : Point
  out : List α

/-- What the two threads do, one atomic step each. -/
inductive Act (α : Type) where
  /-- `send(data)`, on the thread of the screen -/
  | send (data : α)
  /-- an iteration begins; received bytes are handed over -/
  | rx
  /-- the test finds null, and the iteration ends -/
  | isNull
  /-- the test finds an array -/
  | isSet
  /-- the array in the slot is written to the socket -/
  | write
  /-- the slot is cleared, and the iteration ends -/
  | clear
  deriving DecidableEq, Repr

section Runs

variable {α : Type}

/-- The client once it is connected. -/
def TCPClient.start : TCPClient α := ⟨none, .loop, []⟩

/-- The steps, while the connection is up and the loop keeps running. -/
inductive TCPClient.Step : TCPClient α → Act α → TCPClient α → Prop where
  | send (c : TCPClient α) (data : α) : Step c (.send data) { c with mOutByte := some data }
  | rx {c : TCPClient α} (hpoint : c.point = .loop) : Step c .rx { c with point := .test }
  | isNull {c : TCPClient α} (hpoint : c.point = .test) (hnull : c.mOutByte = none) :
      Step c .isNull { c with point := .loop }
  | isSet {c : TCPClient α} (hpoint : c.point = .test) {data : α}
      (hset : c.mOutByte = some data) : Step c .isSet { c with point := .write }
  | write {c : TCPClient α} (hpoint : c.point = .write) {data : α}
      (hset : c.mOutByte = some data) :
      Step c .write { c with out := c.out ++ [data], point := .clear }
  | clear {c : TCPClient α} (hpoint : c.point = .clear) :
      Step c .clear { c with mOutByte := none, point := .loop }

/-- Runs of both threads, in every interleaving of their steps. -/
abbrev TCPClient.Runs (trace : List (Act α)) (c : TCPClient α) : Prop :=
  Steps TCPClient.Step TCPClient.start trace c

/-- The arrays passed to `send`, in order. -/
def sent (trace : List (Act α)) : List α :=
  trace.filterMap fun
    | .send data => some data
    | _ => none

/-- The network thread has completed an iteration that began after the last
send. -/
def Settled (trace : List (Act α)) : Prop :=
  ∃ before after, trace = before ++ .rx :: after ∧ (∀ data, .send data ∉ after) ∧
    (.isNull ∈ after ∨ .clear ∈ after)

/-- Every send happens while `mOutByte` is null. -/
def EverySendFree (trace : List (Act α)) : Prop :=
  ∀ before data after c, trace = before ++ .send data :: after →
    TCPClient.Runs before c → c.mOutByte = none

/-! ## Counting -/

/-- The array in the slot, unless it has already been written. -/
def TCPClient.pending (c : TCPClient α) : List α :=
  if c.point = .clear then [] else c.mOutByte.toList

theorem sent_snoc_send (trace : List (Act α)) (data : α) :
    sent (trace ++ [.send data]) = sent trace ++ [data] := by
  simp [sent]

theorem sent_snoc_other (trace : List (Act α)) {act : Act α}
    (hother : ∀ data, act ≠ .send data) : sent (trace ++ [act]) = sent trace := by
  cases act with
  | send data => exact absurd rfl (hother data)
  | rx => simp [sent]
  | isNull => simp [sent]
  | isSet => simp [sent]
  | write => simp [sent]
  | clear => simp [sent]

/-- The order of the steps determines the state. -/
theorem TCPClient.step_deterministic (c : TCPClient α) (act : Act α) (c' c'' : TCPClient α)
    (h : TCPClient.Step c act c') (h' : TCPClient.Step c act c'') : c' = c'' := by
  cases h with
  | send data => cases h'; rfl
  | rx _ => cases h'; rfl
  | isNull _ _ => cases h'; rfl
  | isSet _ _ => cases h'; rfl
  | write _ hset =>
      cases h' with
      | write _ hset' =>
          obtain rfl := Option.some.inj (hset.symm.trans hset')
          rfl
  | clear _ => cases h'; rfl

theorem everySendFree_snoc {trace : List (Act α)} {c : TCPClient α}
    (hrun : TCPClient.Runs trace c) (act : Act α) :
    EverySendFree (trace ++ [act]) ↔
      EverySendFree trace ∧ ∀ data, act = .send data → c.mOutByte = none := by
  constructor
  · intro hfree
    constructor
    · intro before data after c' htrace hbefore
      refine hfree before data (after ++ [act]) c' ?_ hbefore
      rw [htrace, List.append_assoc, List.cons_append]
    · intro data hsend
      exact hfree trace data [] c (by rw [hsend]) hrun
  · rintro ⟨hfree, hlast⟩ before data after c' htrace hbefore
    rcases List.eq_nil_or_concat after with rfl | ⟨after', last, rfl⟩
    · obtain ⟨rfl, hact⟩ := List.append_inj' htrace rfl
      obtain rfl := hrun.deterministic TCPClient.step_deterministic hbefore
      exact hlast data (List.singleton_inj.mp hact)
    · rw [List.concat_eq_append, ← List.cons_append, ← List.append_assoc] at htrace
      obtain ⟨hfront, _⟩ := List.append_inj' htrace rfl
      exact hfree before data after' c' hfront hbefore

/-- What became of the arrays that were sent. -/
structure Account (trace : List (Act α)) (c : TCPClient α) : Prop where
  /-- between the test and the clear the slot is not null -/
  held : c.point = .write ∨ c.point = .clear → c.mOutByte ≠ none
  /-- one array is lost for each send that found the slot occupied -/
  counted : ∃ lost, c.out.length + c.pending.length + lost = (sent trace).length ∧
    (lost = 0 → EverySendFree trace)
  /-- without such a send nothing is lost and the order is kept -/
  kept : EverySendFree trace → sent trace = c.out ++ c.pending

theorem account_start : Account ([] : List (Act α)) TCPClient.start where
  held := by
    intro hpoint
    rcases hpoint with hpoint | hpoint
    · cases hpoint
    · cases hpoint
  counted := by
    refine ⟨0, rfl, fun _ before data after c htrace _ => ?_⟩
    exact absurd htrace (by simp)
  kept := fun _ => rfl

/-- A step of the network thread moves at most one array from the slot to the
socket. -/
theorem Account.network {trace : List (Act α)} {c c' : TCPClient α} {act : Act α}
    (h : Account trace c) (hrun : TCPClient.Runs trace c)
    (hother : ∀ data, act ≠ .send data)
    (hheld : c'.point = .write ∨ c'.point = .clear → c'.mOutByte ≠ none)
    (hmoved : c'.out ++ c'.pending = c.out ++ c.pending) : Account (trace ++ [act]) c' := by
  have hfree : EverySendFree (trace ++ [act]) ↔ EverySendFree trace := by
    rw [everySendFree_snoc hrun]
    exact and_iff_left fun data hsend => absurd hsend (hother data)
  have hlen := congrArg List.length hmoved
  rw [List.length_append, List.length_append] at hlen
  obtain ⟨lost, hcount, hnone⟩ := h.counted
  refine ⟨hheld, ⟨lost, ?_, fun hzero => hfree.mpr (hnone hzero)⟩, fun hall => ?_⟩
  · rw [sent_snoc_other trace hother, hlen, hcount]
  · rw [sent_snoc_other trace hother, hmoved]
    exact h.kept (hfree.mp hall)

/-- A send adds one array; one is lost unless the slot was free. -/
theorem Account.send {trace : List (Act α)} {c : TCPClient α} (h : Account trace c)
    (hrun : TCPClient.Runs trace c) (data : α) :
    Account (trace ++ [.send data]) { c with mOutByte := some data } := by
  have hfree := everySendFree_snoc hrun (.send data)
  obtain ⟨lost, hcount, hnone⟩ := h.counted
  refine ⟨fun _ => Option.some_ne_none data, ?_, fun hall => ?_⟩
  · rw [sent_snoc_send, List.length_append, List.length_singleton, ← hcount]
    cases hslot : c.mOutByte with
    | none =>
        -- The slot was free, so the thread is not between its test and its clear.
        have hpoint : c.point ≠ .clear := fun hclear => h.held (Or.inr hclear) hslot
        refine ⟨lost, ?_, fun hzero => hfree.mpr ⟨hnone hzero, fun _ _ => hslot⟩⟩
        simp only [TCPClient.pending, if_neg hpoint, hslot, Option.toList]
        rw [List.length_singleton, List.length_nil]
        omega
    | some old =>
        refine ⟨lost + 1, ?_, fun hzero => absurd hzero (Nat.succ_ne_zero lost)⟩
        by_cases hclear : c.point = .clear
        · simp only [TCPClient.pending, if_pos hclear]
          omega
        · simp only [TCPClient.pending, if_neg hclear, hslot, Option.toList]
          rw [List.length_singleton, List.length_singleton]
          omega
  · obtain ⟨hbefore, hnow⟩ := hfree.mp hall
    have hslot : c.mOutByte = none := hnow data rfl
    have hpoint : c.point ≠ .clear := fun hclear => h.held (Or.inr hclear) hslot
    have hkept := h.kept hbefore
    rw [TCPClient.pending, if_neg hpoint, hslot, Option.toList, List.append_nil] at hkept
    rw [sent_snoc_send, hkept, TCPClient.pending]
    simp only [if_neg hpoint]
    rfl

theorem Account.step {trace : List (Act α)} {c c' : TCPClient α} {act : Act α}
    (h : Account trace c) (hrun : TCPClient.Runs trace c) (hstep : TCPClient.Step c act c') :
    Account (trace ++ [act]) c' := by
  cases hstep with
  | send data => exact h.send hrun data
  | rx hpoint =>
      refine h.network hrun (fun data hact => by cases hact) ?_ ?_
      · intro hbad
        rcases hbad with hbad | hbad
        · cases hbad
        · cases hbad
      · simp [TCPClient.pending, hpoint]
  | isNull hpoint hnull =>
      refine h.network hrun (fun data hact => by cases hact) ?_ ?_
      · intro hbad
        rcases hbad with hbad | hbad
        · cases hbad
        · cases hbad
      · simp [TCPClient.pending, hpoint]
  | isSet hpoint hset =>
      refine h.network hrun (fun data hact => by cases hact) ?_ ?_
      · intro _
        simp [hset]
      · simp [TCPClient.pending, hpoint]
  | write hpoint hset =>
      refine h.network hrun (fun data hact => by cases hact) ?_ ?_
      · intro _
        simp [hset]
      · simp [TCPClient.pending, hpoint, hset]
  | clear hpoint =>
      refine h.network hrun (fun data hact => by cases hact) ?_ ?_
      · intro hbad
        rcases hbad with hbad | hbad
        · cases hbad
        · cases hbad
      · simp [TCPClient.pending, hpoint]

/-- The account of every run. -/
theorem account {trace : List (Act α)} {c : TCPClient α} (hrun : TCPClient.Runs trace c) :
    Account trace c := by
  have hboth : TCPClient.Runs trace c ∧ Account trace c := by
    refine hrun.invariant (fun trace c => TCPClient.Runs trace c ∧ Account trace c)
      ⟨.refl, account_start⟩ ?_
    intro trace c act c' hinv hstep
    exact ⟨hinv.1.snoc hstep, hinv.2.step hinv.1 hstep⟩
  exact hboth.2

/-- The network thread never stands still: in every reachable state it has a
step, and a write never finds null. -/
theorem network_moves {trace : List (Act α)} {c : TCPClient α}
    (hrun : TCPClient.Runs trace c) :
    ∃ act c', TCPClient.Step c act c' ∧ ∀ data, act ≠ .send data := by
  cases hpoint : c.point with
  | loop => exact ⟨.rx, _, .rx hpoint, fun data hact => by cases hact⟩
  | test =>
      cases hslot : c.mOutByte with
      | none => exact ⟨.isNull, _, .isNull hpoint hslot, fun data hact => by cases hact⟩
      | some old => exact ⟨.isSet, _, .isSet hpoint hslot, fun data hact => by cases hact⟩
  | write =>
      obtain ⟨data, hset⟩ := Option.ne_none_iff_exists'.mp ((account hrun).held (Or.inl hpoint))
      exact ⟨.write, _, .write hpoint hset, fun data hact => by cases hact⟩
  | clear => exact ⟨.clear, _, .clear hpoint, fun data hact => by cases hact⟩

/-! ## After the last send -/

/-- Once an iteration has ended, and until the next send, the slot is null and
the thread is outside the transmit branch. -/
theorem quiet_of_iteration {c c' : TCPClient α} {after : List (Act α)}
    (hrun : Steps TCPClient.Step c after c') (hnone : ∀ data, .send data ∉ after)
    (hend : .isNull ∈ after ∨ .clear ∈ after) :
    c'.mOutByte = none ∧ (c'.point = .loop ∨ c'.point = .test) := by
  refine hrun.invariant (fun after c' => (∀ data, .send data ∉ after) →
    (.isNull ∈ after ∨ .clear ∈ after) →
      c'.mOutByte = none ∧ (c'.point = .loop ∨ c'.point = .test)) ?_ ?_ hnone hend
  · intro _ hend
    rcases hend with hend | hend
    · exact absurd hend List.not_mem_nil
    · exact absurd hend List.not_mem_nil
  · intro after c act c' ih hstep hnone hend
    have hbefore : (.isNull ∈ after ∨ .clear ∈ after) →
        c.mOutByte = none ∧ (c.point = .loop ∨ c.point = .test) :=
      ih fun data hmem => hnone data (List.mem_append_left _ hmem)
    have hcases : (.isNull ∈ after ∨ .clear ∈ after) ∨ act = .isNull ∨ act = .clear := by
      simp only [List.mem_append, List.mem_singleton] at hend
      rcases hend with (hend | hend) | (hend | hend)
      · exact Or.inl (Or.inl hend)
      · exact Or.inr (Or.inl hend.symm)
      · exact Or.inl (Or.inr hend)
      · exact Or.inr (Or.inr hend.symm)
    cases hstep with
    | send data => exact absurd (by simp) (hnone data)
    | rx hpoint =>
        rcases hcases with hended | hact | hact
        · exact ⟨(hbefore hended).1, Or.inr rfl⟩
        · cases hact
        · cases hact
    | isNull hpoint hnull => exact ⟨hnull, Or.inl rfl⟩
    | isSet hpoint hset =>
        rcases hcases with hended | hact | hact
        · rw [(hbefore hended).1] at hset
          cases hset
        · cases hact
        · cases hact
    | write hpoint hset =>
        rcases hcases with hended | hact | hact
        · rw [(hbefore hended).1] at hset
          cases hset
        · cases hact
        · cases hact
    | clear hpoint => exact ⟨rfl, Or.inl rfl⟩

theorem pending_eq_nil_of_settled {trace : List (Act α)} {c : TCPClient α}
    (hrun : TCPClient.Runs trace c) (hsettled : Settled trace) : c.pending = [] := by
  obtain ⟨before, after, rfl, hnone, hend⟩ := hsettled
  rw [← List.singleton_append, ← List.append_assoc] at hrun
  obtain ⟨mid, _, hafter⟩ := hrun.split
  have hquiet := quiet_of_iteration hafter hnone hend
  rw [TCPClient.pending, hquiet.1]
  exact ite_self []

/-! ## Main result -/

/-- In every run that has settled, the arrays written to the socket are exactly
those that were sent, in order and each once, if and only if every send happened
while the slot was null. -/
theorem commands_delivered_iff {trace : List (Act α)} {c : TCPClient α}
    (hrun : TCPClient.Runs trace c) (hsettled : Settled trace) :
    c.out = sent trace ↔ EverySendFree trace := by
  have hpending := pending_eq_nil_of_settled hrun hsettled
  have haccount := account hrun
  constructor
  · intro hdelivered
    obtain ⟨lost, hcount, hnone⟩ := haccount.counted
    apply hnone
    rw [hpending, hdelivered, List.length_nil] at hcount
    omega
  · intro hfree
    have hkept := haccount.kept hfree
    rw [hpending, List.append_nil] at hkept
    exact hkept.symm

end Runs

/-! ## Two runs -/

/-- One command, written and cleared before the next. -/
theorem runs_one_command {data : List Byte} :
    TCPClient.Runs [.send data, .rx, .isSet, .write, .clear, .rx, .isNull]
      ⟨none, .loop, [data]⟩ := by
  have hsend := Steps.refl.snoc (TCPClient.Step.send TCPClient.start data)
  have hrx := hsend.snoc (.rx rfl)
  have hset := hrx.snoc (.isSet rfl rfl)
  have hwrite := hset.snoc (.write rfl rfl)
  have hclear := hwrite.snoc (.clear rfl)
  have hagain := hclear.snoc (.rx rfl)
  exact hagain.snoc (.isNull rfl rfl)

theorem commands_delivered_one :
    ([[0xF7#8]] : List (List Byte)) =
        sent [.send [0xF7#8], .rx, .isSet, .write, .clear, .rx, .isNull] ↔
      EverySendFree [.send [0xF7#8], .rx, .isSet, .write, .clear, .rx, .isNull] :=
  commands_delivered_iff runs_one_command
    ⟨[.send [0xF7#8]], [.isSet, .write, .clear, .rx, .isNull], rfl, by simp, by simp⟩

/-- A command stored between the write of the one before and the clear is
cleared without being written. -/
theorem commands_lost :
    ∃ (trace : List (Act (List Byte))) (c : TCPClient (List Byte)),
      trace = [.send [0xF7#8], .rx, .isSet, .write, .send [0xC0#8], .clear, .rx, .isNull] ∧
      TCPClient.Runs trace c ∧ Settled trace ∧ c.out = [[0xF7#8]] ∧
      sent trace = [[0xF7#8], [0xC0#8]] := by
  refine ⟨_, ⟨none, .loop, [[0xF7#8]]⟩, rfl, ?_, ?_, rfl, rfl⟩
  · have hsend := Steps.refl.snoc (TCPClient.Step.send TCPClient.start [0xF7#8])
    have hrx := hsend.snoc (.rx rfl)
    have hset := hrx.snoc (.isSet rfl rfl)
    have hwrite := hset.snoc (.write rfl rfl)
    have hover := hwrite.snoc (.send _ [0xC0#8])
    have hclear := hover.snoc (.clear rfl)
    have hagain := hclear.snoc (.rx rfl)
    exact hagain.snoc (.isNull rfl rfl)
  · exact ⟨[.send [0xF7#8], .rx, .isSet, .write, .send [0xC0#8], .clear], [.isNull], rfl,
      by simp, by simp⟩

end IrBridge.Client
