/-
  Foundation/Channel.lean --- reliable byte streams.

  A channel takes messages at one end and gives blocks at the other: nothing is
  lost, added or reordered, and that is all it promises.  Where a block begins
  and ends is up to the channel.  The invariant is a field, so that a channel
  that loses something cannot be built.

  What arrives over several channels is one list of blocks, each with the channel
  it came from; `onChannel` picks those of one channel.
-/
import Mathlib.Data.List.Infix

set_option autoImplicit false

namespace IrBridge.Foundation

/-! ## One channel -/

/-- A stream of `α` in transit. -/
structure Channel (α : Type) where
  /-- the messages, in order -/
  sent : List (List α)
  /-- the blocks, in order -/
  received : List (List α)
  /-- what is still under way -/
  pending : List α
  conserved : received.flatten ++ pending = sent.flatten

namespace Channel

variable {α : Type}

/-- Nothing was sent yet. -/
def empty : Channel α := ⟨[], [], [], rfl⟩

/-- A message is handed over. -/
def send (c : Channel α) (message : List α) : Channel α where
  sent := c.sent ++ [message]
  received := c.received
  pending := c.pending ++ message
  conserved := by
    rw [← List.append_assoc, c.conserved, List.flatten_append, List.flatten_singleton]

/-- A block of what is under way arrives. -/
def receive (c : Channel α) (block : List α) (hblock : block <+: c.pending) : Channel α where
  sent := c.sent
  received := c.received ++ [block]
  pending := c.pending.drop block.length
  conserved := by
    obtain ⟨rest, hrest⟩ := hblock
    rw [← c.conserved, ← hrest, List.drop_left, List.flatten_append, List.flatten_singleton,
      List.append_assoc]

/-- Blocks that are as long as the messages are the messages. -/
theorem eq_append_of_lengths {blocks messages : List (List α)} {rest : List α}
    (hflat : blocks.flatten ++ rest = messages.flatten)
    (hlengths : blocks.map List.length <+: messages.map List.length) :
    ∃ others, messages = blocks ++ others ∧ rest = others.flatten := by
  induction blocks generalizing messages with
  | nil => exact ⟨messages, rfl, hflat⟩
  | cons block blocks ih =>
      cases messages with
      | nil => simp at hlengths
      | cons message messages =>
          rw [List.map_cons, List.map_cons, List.cons_prefix_cons] at hlengths
          rw [List.flatten_cons, List.flatten_cons, List.append_assoc] at hflat
          obtain ⟨rfl, htail⟩ := List.append_inj hflat hlengths.1
          obtain ⟨others, rfl, hrest⟩ := ih htail hlengths.2
          exact ⟨others, rfl, hrest⟩

/-- A channel that cuts its stream where the messages end hands over messages. -/
theorem received_initial (c : Channel α)
    (hlengths : c.received.map List.length <+: c.sent.map List.length) :
    c.received <+: c.sent := by
  obtain ⟨others, hsent, _⟩ := eq_append_of_lengths c.conserved hlengths
  exact ⟨others, hsent.symm⟩

/-- All of them, once nothing is under way. -/
theorem received_eq (c : Channel α) (hne : ∀ message ∈ c.sent, message ≠ [])
    (hlengths : c.received.map List.length <+: c.sent.map List.length)
    (hpending : c.pending = []) : c.received = c.sent := by
  obtain ⟨others, hsent, hrest⟩ := eq_append_of_lengths c.conserved hlengths
  rw [hpending] at hrest
  cases others with
  | nil => rw [hsent, List.append_nil]
  | cons message others =>
      have hempty : message = [] := (List.append_eq_nil_iff.mp hrest.symm).1
      have hmem : message ∈ c.sent := by
        rw [hsent]
        exact List.mem_append_right _ List.mem_cons_self
      exact absurd hempty (hne message hmem)

end Channel

/-! ## Several channels -/

section Several

variable {κ α : Type} [DecidableEq κ]

/-- What arrived on channel `k`, in order. -/
def onChannel (k : κ) (arrivals : List (κ × α)) : List α :=
  arrivals.filterMap fun arrival => if arrival.1 = k then some arrival.2 else none

theorem onChannel_append (k : κ) (first rest : List (κ × α)) :
    onChannel k (first ++ rest) = onChannel k first ++ onChannel k rest :=
  List.filterMap_append

theorem onChannel_self (k : κ) (a : α) : onChannel k [(k, a)] = [a] := by
  simp [onChannel]

theorem onChannel_other {k j : κ} (h : j ≠ k) (a : α) : onChannel k [(j, a)] = [] := by
  simp [onChannel, h]

theorem mem_of_mem_onChannel {k : κ} {a : α} {arrivals : List (κ × α)}
    (h : (k, a) ∈ arrivals) : a ∈ onChannel k arrivals :=
  List.mem_filterMap.mpr ⟨(k, a), h, if_pos rfl⟩

end Several

end IrBridge.Foundation
