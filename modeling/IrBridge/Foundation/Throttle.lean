/-
  Foundation/Throttle.lean --- letting through what comes late enough.

  The machine remembers when it last let something through, and lets the next
  thing through only when it comes more than `gap` later.  The times are those of
  a clock that may be set: nothing is assumed about their order.  What is let
  through is in order all the same, and it bounds how much that can be.
-/
import IrBridge.Foundation.Transducer
import Mathlib.Tactic.Ring
import Mathlib.Tactic.Linarith

set_option autoImplicit false

namespace IrBridge.Foundation

namespace Throttle

variable {α : Type} (time : α → Int) (gap : Int)

/-- More than `gap` has passed since the time remembered. -/
def Due (last : Option Int) (a : α) : Prop := ∀ t ∈ last, gap < time a - t

instance (last : Option Int) (a : α) : Decidable (Due time gap last a) :=
  match last with
  | none => .isTrue (fun _ h => absurd h (Option.not_mem_none _))
  | some t => decidable_of_iff (gap < time a - t)
      ⟨fun h _ ht => Option.some.inj ht ▸ h, fun h => h t rfl⟩

/-- The state is the time remembered. -/
def machine : Transducer (Option Int) α α where
  step last a := if Due time gap last a then (some (time a), [a]) else (last, [])

variable {time gap}

theorem step_of_due {last : Option Int} {a : α} (hdue : Due time gap last a) :
    (machine time gap).step last a = (some (time a), [a]) := if_pos hdue

theorem step_of_not_due {last : Option Int} {a : α} (hdue : ¬ Due time gap last a) :
    (machine time gap).step last a = (last, []) := if_neg hdue

/-- What is let through comes more than `gap` after what was let through before. -/
theorem run_spaced (time : α → Int) (hgap : 0 ≤ gap) (last : Option Int) (as : List α) :
    (∀ a ∈ ((machine time gap).run last as).2, Due time gap last a) ∧
      ((machine time gap).run last as).2.Pairwise fun a b => time a + gap < time b := by
  induction as generalizing last with
  | nil => exact ⟨by simp, List.Pairwise.nil⟩
  | cons a as ih =>
      rw [Transducer.run_cons]
      by_cases hdue : Due time gap last a
      · rw [step_of_due hdue]
        obtain ⟨hlater, hspaced⟩ := ih (some (time a))
        have hafter : ∀ b ∈ ((machine time gap).run (some (time a)) as).2,
            time a + gap < time b := by
          intro b hb
          have hb := hlater b hb (time a) rfl
          omega
        refine ⟨?_, List.pairwise_cons.mpr ⟨hafter, hspaced⟩⟩
        intro b hb t ht
        rcases List.mem_cons.mp hb with rfl | hb
        · exact hdue t ht
        · have hfirst := hdue t ht
          have hb := hafter b hb
          omega
      · rw [step_of_not_due hdue]
        exact ih last

/-- Whatever came, something was let through not more than `gap` before it. -/
theorem run_near (time : α → Int) (hgap : 0 ≤ gap) (last : Option Int) {as : List α} {a : α}
    (ha : a ∈ as) :
    (∃ t ∈ last, time a ≤ t + gap) ∨
      ∃ b ∈ ((machine time gap).run last as).2, time a ≤ time b + gap := by
  induction as generalizing last with
  | nil => cases ha
  | cons c as ih =>
      rw [Transducer.run_cons]
      by_cases hdue : Due time gap last c
      · rw [step_of_due hdue]
        rcases List.mem_cons.mp ha with rfl | ha
        · exact Or.inr ⟨a, List.mem_cons_self, by omega⟩
        · rcases ih (some (time c)) ha with ⟨t, ht, hnear⟩ | ⟨b, hb, hnear⟩
          · obtain rfl := Option.some.inj ht
            exact Or.inr ⟨c, List.mem_cons_self, hnear⟩
          · exact Or.inr ⟨b, List.mem_cons_of_mem c hb, hnear⟩
      · rw [step_of_not_due hdue]
        rcases List.mem_cons.mp ha with rfl | ha
        · rw [Due] at hdue
          push Not at hdue
          obtain ⟨t, ht, hearly⟩ := hdue
          exact Or.inl ⟨t, ht, by omega⟩
        · exact ih last ha

/-- So many fit between two times. -/
theorem length_of_spaced {as : List α} (hspaced : as.Pairwise fun a b => time a + gap < time b)
    {start stop : Int} (hstart : ∀ a ∈ as, start ≤ time a) (hstop : ∀ a ∈ as, time a ≤ stop)
    (hle : start ≤ stop + (gap + 1)) :
    (as.length : Int) * (gap + 1) ≤ stop - start + (gap + 1) := by
  induction as generalizing start with
  | nil =>
      rw [List.length_nil, Nat.cast_zero, zero_mul]
      omega
  | cons a as ih =>
      obtain ⟨hafter, hspaced⟩ := List.pairwise_cons.mp hspaced
      have ha := hstart a List.mem_cons_self
      have ha' := hstop a List.mem_cons_self
      have hlater : ∀ b ∈ as, time a + (gap + 1) ≤ time b := by
        intro b hb
        have hb := hafter b hb
        omega
      have hrest := ih hspaced hlater (fun b hb => hstop b (List.mem_cons_of_mem a hb)) (by omega)
      rw [List.length_cons, Nat.cast_add, Nat.cast_one, add_mul, one_mul]
      omega

theorem length_within {as : List α} (hspaced : as.Pairwise fun a b => time a + gap < time b)
    (hgap : 0 ≤ gap) {start stop : Int} (hle : start ≤ stop) :
    ((as.filter fun a => start ≤ time a ∧ time a ≤ stop).length : Int) * (gap + 1) ≤
      stop - start + (gap + 1) := by
  have hwithin : ∀ a ∈ as.filter (fun a => start ≤ time a ∧ time a ≤ stop),
      start ≤ time a ∧ time a ≤ stop := by
    intro a ha
    exact of_decide_eq_true (List.mem_filter.mp ha).2
  exact length_of_spaced (hspaced.filter _) (fun a ha => (hwithin a ha).1)
    (fun a ha => (hwithin a ha).2) (by omega)

end Throttle

end IrBridge.Foundation
