/-
  Foundation/Runs.lean --- counting positions inside maximal runs.

  `List.splitBy r` cuts a list into maximal runs of neighbours related by `r`.
  A machine that remembers the previous element and a counter, and restarts the
  counter where the relation breaks, numbers every element with its position in
  its run (`counter_run`).
-/
import IrBridge.Foundation.Transducer
import Mathlib.Data.List.SplitBy

set_option autoImplicit false

namespace IrBridge.Foundation

namespace Runs

variable {α : Type} (r : α → α → Bool)

/-- The state is the previous element with its position, if there is one. -/
def counter : Transducer (Option (α × Nat)) α (α × Nat) where
  step
    | none, a => (some (a, 0), [(a, 0)])
    | some (prev, n), a =>
        let pos := if r prev a then n + 1 else 0
        (some (a, pos), [(a, pos)])

theorem counter_step_same {prev a : α} (n : Nat) (h : r prev a = true) :
    (counter r).step (some (prev, n)) a = (some (a, n + 1), [(a, n + 1)]) := by
  simp [counter, h]

theorem counter_step_break {prev a : α} (n : Nat) (h : r prev a = false) :
    (counter r).step (some (prev, n)) a = (some (a, 0), [(a, 0)]) := by
  simp [counter, h]

/-- Every element with its position in its maximal run. -/
def numbered (l : List α) : List (α × Nat) := (l.splitBy r).flatMap List.zipIdx

/-- From inside a run `g` that ends in `prev`, the machine numbers the rest. -/
theorem counter_run_from {g : List α} {prev : α} (hlast : g.getLast? = some prev)
    (hchain : g.IsChain fun a b => r a b) (l : List α) :
    numbered r (g ++ l) =
      g.zipIdx ++ ((counter r).run (some (prev, g.length - 1)) l).2 := by
  have hne : g ≠ [] := by
    rintro rfl
    cases hlast
  have hpos : 0 < g.length := List.length_pos_iff.mpr hne
  induction l generalizing g prev with
  | nil =>
      rw [List.append_nil, numbered, List.splitBy_of_isChain hne hchain]
      simp
  | cons a l ih =>
      cases hrel : r prev a with
      | true =>
          -- The run goes on: `g ++ [a]` is the run so far.
          have hchain' : (g ++ [a]).IsChain fun a b => r a b := by
            refine List.isChain_append.mpr ⟨hchain, List.isChain_singleton a, ?_⟩
            intro x hx y hy
            rw [hlast] at hx
            cases hx
            cases hy
            exact hrel
          have hlast' : (g ++ [a]).getLast? = some a := by simp
          have hrest := ih hlast' hchain' (by simp) (by simp)
          have hlen : (g ++ [a]).length - 1 = g.length - 1 + 1 := by
            rw [List.length_append, List.length_singleton]
            omega
          rw [List.append_assoc, List.singleton_append, hlen] at hrest
          rw [hrest, Transducer.run_cons, counter_step_same r _ hrel, List.zipIdx_append,
            show g.length - 1 + 1 = g.length by omega]
          simp
      | false =>
          -- A new run starts with `a`.
          have hbreak : ∀ x ∈ g.getLast?, r x a = false := by
            intro x hx
            rw [hlast] at hx
            cases hx
            exact hrel
          have hrest := ih (g := [a]) rfl (List.isChain_singleton a) (by simp) (by simp)
          rw [List.singleton_append, List.length_singleton] at hrest
          have hsplit : numbered r (g ++ a :: l) = g.zipIdx ++ numbered r (a :: l) := by
            rw [numbered, List.splitBy_append_cons l hbreak,
              List.splitBy_of_isChain hne hchain, List.flatMap_append, List.flatMap_singleton]
            rfl
          rw [hsplit, hrest, Transducer.run_cons, counter_step_break r _ hrel]
          rfl

/-- The machine's outputs are the elements with their positions. -/
theorem counter_run (l : List α) : ((counter r).run none l).2 = numbered r l := by
  cases l with
  | nil => rfl
  | cons a l =>
      have hrest := counter_run_from r (g := [a]) rfl (List.isChain_singleton a) l
      rw [List.singleton_append, List.length_singleton] at hrest
      rw [hrest]
      rfl

end Runs

end IrBridge.Foundation
