/-
  Foundation/Transducer.lean --- deterministic letter-at-a-time transducers.

  A receiver that is handed its input in blocks of whatever size the transport
  chose is well behaved exactly when it can be described one letter at a time.
  This file fixes that description: a step from a state and a letter to a state
  and the outputs it emits, its extension to words, the statement that cutting
  the word changes nothing, and the two proof rules the rest of the
  development uses, one for invariants and one for simulations.
-/
import Mathlib.Data.List.Basic

set_option autoImplicit false

namespace IrBridge.Foundation

/-- A deterministic transducer: a letter moves the state and emits a list of
outputs. -/
structure Transducer (σ α β : Type) where
  step : σ → α → σ × List β

namespace Transducer

variable {σ τ α β γ : Type}

/-- Run over a whole word, collecting the outputs in order. -/
def run (T : Transducer σ α β) : σ → List α → σ × List β
  | s, [] => (s, [])
  | s, a :: as =>
      let next := T.step s a
      let rest := T.run next.1 as
      (rest.1, next.2 ++ rest.2)

/-- Run over a word that arrives in consecutive blocks, one after another. -/
def runBlocks (T : Transducer σ α β) : σ → List (List α) → σ × List β
  | s, [] => (s, [])
  | s, block :: blocks =>
      let next := T.run s block
      let rest := T.runBlocks next.1 blocks
      (rest.1, next.2 ++ rest.2)

@[simp] theorem run_nil (T : Transducer σ α β) (s : σ) : T.run s [] = (s, []) :=
  rfl

theorem run_cons (T : Transducer σ α β) (s : σ) (a : α) (as : List α) :
    T.run s (a :: as) =
      ((T.run (T.step s a).1 as).1,
        (T.step s a).2 ++ (T.run (T.step s a).1 as).2) :=
  rfl

/-! ## Cutting the input -/

/-- A run over a concatenation is the run over the second word from where the
first one stopped. -/
theorem run_append (T : Transducer σ α β) (s : σ) (as bs : List α) :
    T.run s (as ++ bs) =
      ((T.run (T.run s as).1 bs).1,
        (T.run s as).2 ++ (T.run (T.run s as).1 bs).2) := by
  induction as generalizing s with
  | nil => simp
  | cons a as ih =>
      rw [List.cons_append, run_cons, ih, run_cons]
      simp [List.append_assoc]

/-- Blocks are transparent: only the word they add up to matters. -/
theorem runBlocks_eq_run (T : Transducer σ α β) (s : σ)
    (blocks : List (List α)) :
    T.runBlocks s blocks = T.run s blocks.flatten := by
  induction blocks generalizing s with
  | nil => rfl
  | cons block blocks ih =>
      rw [List.flatten_cons, run_append, runBlocks, ih]

/-! ## Proof rules -/

/-- Invariant rule: what every step preserves, and what every emitted output
satisfies, holds of a whole run. -/
theorem run_invariant (T : Transducer σ α β) (Inv : σ → Prop) (Out : β → Prop)
    {as : List α}
    (hstep : ∀ s, ∀ a ∈ as, Inv s →
      Inv (T.step s a).1 ∧ ∀ b ∈ (T.step s a).2, Out b)
    {s : σ} (hs : Inv s) :
    Inv (T.run s as).1 ∧ ∀ b ∈ (T.run s as).2, Out b := by
  induction as generalizing s with
  | nil => exact ⟨hs, by simp⟩
  | cons a as ih =>
      obtain ⟨hnext, hout⟩ := hstep s a List.mem_cons_self hs
      obtain ⟨hfinal, hrest⟩ :=
        ih (fun s' a' ha' => hstep s' a' (List.mem_cons_of_mem a ha')) hnext
      refine ⟨hfinal, fun b hb => ?_⟩
      rw [run_cons, List.mem_append] at hb
      exact hb.elim (hout b) (hrest b)

/-- Simulation rule: related states that step to related states, emitting
outputs that correspond under `f`, run to related states with corresponding
outputs.  The concrete letters are read through `g`. -/
theorem run_simulation {α' : Type} {T : Transducer σ α β} {U : Transducer τ α' γ}
    {R : σ → τ → Prop} (g : α → α') (f : γ → β)
    (hstep : ∀ s t a, R s t →
      R (T.step s a).1 (U.step t (g a)).1 ∧
        (T.step s a).2 = (U.step t (g a)).2.map f)
    {s : σ} {t : τ} (hst : R s t) (as : List α) :
    R (T.run s as).1 (U.run t (as.map g)).1 ∧
      (T.run s as).2 = (U.run t (as.map g)).2.map f := by
  induction as generalizing s t with
  | nil => exact ⟨hst, rfl⟩
  | cons a as ih =>
      obtain ⟨hnext, hout⟩ := hstep s t a hst
      obtain ⟨hfinal, hrest⟩ := ih hnext
      refine ⟨hfinal, ?_⟩
      rw [run_cons, List.map_cons, run_cons, hout, hrest, List.map_append]

end Transducer

end IrBridge.Foundation
