/-
  Foundation/Grouping.lean --- a sequence that is read in groups of three.

  A reader that counts modulo three hands out a group with every third element,
  and keeps what has come of the next one.  Every element is in one group or kept,
  so that no weight is counted twice (`run_weight`).
-/
import IrBridge.Foundation.Transducer
import Mathlib.Algebra.Ring.Nat
import Mathlib.Data.List.Induction

set_option autoImplicit false

namespace IrBridge.Foundation

namespace Grouping

variable {α : Type}

/-- What has come of a group that is not complete. -/
inductive Pending (α : Type) where
  | none
  | one (first : α)
  | two (first second : α)

/-- How much has come. -/
def Pending.count : Pending α → Nat
  | .none => 0
  | .one _ => 1
  | .two _ _ => 2

/-- The grouper. -/
def machine : Transducer (Pending α) α (α × α × α) where
  step
    | .none, a => (.one a, [])
    | .one first, a => (.two first a, [])
    | .two first second, a => (.none, [(first, second, a)])

theorem run_group (first second third : α) (as : List α) :
    machine.run .none (first :: second :: third :: as) =
      ((machine.run .none as).1, (first, second, third) :: (machine.run .none as).2) :=
  rfl

/-- One element more. -/
theorem run_concat (s : Pending α) (as : List α) (a : α) :
    machine.run s (as ++ [a]) =
      ((machine.step (machine.run s as).1 a).1,
        (machine.run s as).2 ++ (machine.step (machine.run s as).1 a).2) := by
  rw [Transducer.run_append, Transducer.run_cons, Transducer.run_nil, List.append_nil]

/-- A group, element by element. -/
def groupMap {β : Type} (f : α → β) (group : α × α × α) : β × β × β :=
  (f group.1, f group.2.1, f group.2.2)

/-- What has come of a group, element by element. -/
def Pending.map {β : Type} (f : α → β) : Pending α → Pending β
  | .none => .none
  | .one first => .one (f first)
  | .two first second => .two (f first) (f second)

theorem step_map {β : Type} (f : α → β) (s : Pending α) (a : α) :
    machine.step (s.map f) (f a) =
      ((machine.step s a).1.map f, (machine.step s a).2.map (groupMap f)) := by
  cases s with
  | none => rfl
  | one first => rfl
  | two first second => rfl

/-- The groups of images are the images of the groups. -/
theorem run_map {β : Type} (f : α → β) (as : List α) :
    machine.run .none (as.map f) =
      ((machine.run .none as).1.map f, (machine.run .none as).2.map (groupMap f)) := by
  induction as using List.reverseRecOn with
  | nil => rfl
  | append_singleton as a ih =>
      rw [List.map_append, List.map_singleton, run_concat, run_concat, ih]
      dsimp only
      rw [step_map, List.map_append]

/-- The weight of a group. -/
def groupWeight (weight : α → Nat) (group : α × α × α) : Nat :=
  weight group.1 + weight group.2.1 + weight group.2.2

/-- The weight of what is kept. -/
def Pending.weight (weight : α → Nat) : Pending α → Nat
  | .none => 0
  | .one first => weight first
  | .two first second => weight first + weight second

theorem step_weight (weight : α → Nat) (s : Pending α) (a : α) :
    ((machine.step s a).2.map (groupWeight weight)).sum + (machine.step s a).1.weight weight =
      s.weight weight + weight a := by
  cases s with
  | none => rfl
  | one first => exact Nat.zero_add _
  | two first second => rfl

/-- The groups and what is kept weigh as much as what was read. -/
theorem run_weight (weight : α → Nat) (as : List α) :
    ((machine.run .none as).2.map (groupWeight weight)).sum +
      (machine.run .none as).1.weight weight = (as.map weight).sum := by
  induction as using List.reverseRecOn with
  | nil => rfl
  | append_singleton as a ih =>
      have hstep := step_weight weight (machine.run .none as).1 a
      simp only [run_concat, List.map_append, List.sum_append, List.map_singleton,
        List.sum_singleton]
      omega

end Grouping

end IrBridge.Foundation
