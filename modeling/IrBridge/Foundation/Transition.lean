/-
  Foundation/Transition.lean --- runs of a labelled transition relation.

  A system that goes on for ever is described by what one step can do; what it
  does is the list of labels of a run.  A run grows at its end, so that an
  invariant can speak of everything that happened so far.
-/
import Mathlib.Algebra.BigOperators.Group.List.Basic
import Mathlib.Algebra.GroupWithZero.Nat
import Mathlib.Data.List.Basic
import Mathlib.Data.List.Induction

set_option autoImplicit false

namespace IrBridge.Foundation

/-- Finite runs, with the labels of their steps in order. -/
inductive Steps {σ ε : Type} (step : σ → ε → σ → Prop) (s : σ) : List ε → σ → Prop where
  | refl : Steps step s [] s
  | snoc {labels : List ε} {t u : σ} {label : ε} :
      Steps step s labels t → step t label u → Steps step s (labels ++ [label]) u

namespace Steps

variable {σ τ ε : Type} {step : σ → ε → σ → Prop} {s t : σ}

/-- What holds of the empty run and is kept by a step holds of every run. -/
theorem invariant (Inv : List ε → σ → Prop) (hstart : Inv [] s)
    (hstep : ∀ labels t label u, Inv labels t → step t label u → Inv (labels ++ [label]) u)
    {labels : List ε} (hrun : Steps step s labels t) : Inv labels t := by
  induction hrun with
  | refl => exact hstart
  | snoc _ hlast ih => exact hstep _ _ _ _ ih hlast

/-- A simulation carries runs over, label by label. -/
theorem simulation {step' : τ → ε → τ → Prop} {R : σ → τ → Prop}
    (hstep : ∀ t label u t', R t t' → step t label u → ∃ u', step' t' label u' ∧ R u u')
    {s' : τ} (hstart : R s s') {labels : List ε} (hrun : Steps step s labels t) :
    ∃ t', Steps step' s' labels t' ∧ R t t' := by
  induction hrun with
  | refl => exact ⟨s', .refl, hstart⟩
  | snoc _ hlast ih =>
      obtain ⟨t', hrun', hrel⟩ := ih
      obtain ⟨u', hlast', hrel'⟩ := hstep _ _ _ _ hrel hlast
      exact ⟨u', .snoc hrun' hlast', hrel'⟩

/-- The last step of a run that is not empty. -/
theorem snoc_inv {labels : List ε} {label : ε} {u : σ}
    (hrun : Steps step s (labels ++ [label]) u) :
    ∃ t, Steps step s labels t ∧ step t label u := by
  generalize hall : labels ++ [label] = all at hrun
  cases hrun with
  | refl => exact absurd hall (by simp)
  | snoc hinit hlast =>
      obtain ⟨rfl, hlabel⟩ := List.append_inj' hall rfl
      obtain rfl := List.singleton_inj.mp hlabel
      exact ⟨_, hinit, hlast⟩

/-- A run of one step is that step. -/
theorem singleton_inv {label : ε} (hrun : Steps step s [label] t) : step s label t := by
  obtain ⟨u, hinit, hlast⟩ := snoc_inv ((List.nil_append [label]).symm ▸ hrun)
  generalize hnil : ([] : List ε) = all at hinit
  cases hinit with
  | refl => exact hlast
  | snoc _ _ => exact absurd hnil (by simp)

/-- A run can be cut anywhere. -/
theorem split {labels rest : List ε} {u : σ} (hrun : Steps step s (labels ++ rest) u) :
    ∃ t, Steps step s labels t ∧ Steps step t rest u := by
  generalize hall : labels ++ rest = all at hrun
  induction hrun generalizing rest with
  | refl =>
      obtain ⟨rfl, rfl⟩ := List.append_eq_nil_iff.mp hall
      exact ⟨s, .refl, .refl⟩
  | snoc hinit hlast ih =>
      rcases List.eq_nil_or_concat rest with rfl | ⟨rest', label, rfl⟩
      · rw [List.append_nil] at hall
        subst hall
        exact ⟨_, .snoc hinit hlast, .refl⟩
      · rw [List.concat_eq_append, ← List.append_assoc] at hall
        obtain ⟨hfront, hlabel⟩ := List.append_inj' hall rfl
        obtain rfl := List.singleton_inj.mp hlabel
        obtain ⟨t, hbefore, hafter⟩ := ih hfront
        exact ⟨t, hbefore, List.concat_eq_append ▸ .snoc hafter hlast⟩

/-- A run can begin with a step. -/
theorem cons {label : ε} {labels : List ε} {u : σ} (hfirst : step s label t)
    (hrun : Steps step t labels u) : Steps step s (label :: labels) u := by
  induction hrun with
  | refl => exact (Steps.refl.snoc hfirst)
  | snoc _ hlast ih => exact ih.snoc hlast

/-- If a label determines the step, the labels determine the run. -/
theorem deterministic
    (hstep : ∀ t label u u', step t label u → step t label u' → u = u')
    {labels : List ε} {u u' : σ} (hrun : Steps step s labels u)
    (hrun' : Steps step s labels u') : u = u' := by
  induction hrun generalizing u' with
  | refl =>
      generalize hnil : ([] : List ε) = all at hrun'
      cases hrun' with
      | refl => rfl
      | snoc _ _ => exact absurd hnil (by simp)
  | snoc _ hlast ih =>
      obtain ⟨t', hinit', hlast'⟩ := hrun'.snoc_inv
      obtain rfl := ih hinit'
      exact hstep _ _ _ _ hlast hlast'

/-- A run whose labels all have a property is a run of the steps that have
it. -/
theorem restrict (P : ε → Prop) {labels : List ε} (hrun : Steps step s labels t)
    (hlabels : ∀ label ∈ labels, P label) :
    Steps (fun s label t => P label ∧ step s label t) s labels t := by
  induction hrun with
  | refl => exact .refl
  | snoc _ hlast ih =>
      have hinit := ih fun label hlabel => hlabels label (List.mem_append_left _ hlabel)
      exact hinit.snoc ⟨hlabels _ (List.mem_append_right _ (List.mem_singleton_self _)), hlast⟩

/-- A system that takes steps only while it is alive is alive after some steps if and
only if it survives each of them where it stands. -/
theorem alive_iff {next : σ → ε → σ} {alive : σ → Prop} {survives : σ → ε → Prop}
    (hnext : ∀ t label, alive t → (alive (next t label) ↔ survives t label)) (hstart : alive s)
    (labels : List ε) :
    (∃ t, Steps (fun t label u => alive t ∧ u = next t label) s labels t ∧ alive t) ↔
      ∀ before label after t, labels = before ++ label :: after →
        Steps (fun t label u => alive t ∧ u = next t label) s before t → alive t →
        survives t label := by
  constructor
  · rintro ⟨u, hrun, halive⟩ before label after t rfl hbefore halive'
    obtain ⟨t', hbefore', hrest⟩ := hrun.split
    obtain rfl := hbefore'.deterministic (fun _ _ _ _ h h' => h.2.trans h'.2.symm) hbefore
    rw [← List.singleton_append] at hrest
    obtain ⟨t'', hfirst, hafter⟩ := hrest.split
    -- It was alive all along.
    have hthen : alive t'' := by
      clear hfirst hrest hrun
      induction hafter with
      | refl => exact halive
      | snoc _ hlast ih => exact ih hlast.1
    rw [hfirst.singleton_inv.2] at hthen
    exact (hnext t' label halive').mp hthen
  · intro hall
    induction labels using List.reverseRecOn with
    | nil => exact ⟨s, .refl, hstart⟩
    | append_singleton labels label ih =>
        obtain ⟨t, hrun, halive⟩ := ih fun before earlier after u hlabels =>
          hall before earlier (after ++ [label]) u (by rw [hlabels]; simp)
        exact ⟨_, hrun.snoc ⟨halive, rfl⟩,
          (hnext t label halive).mpr (hall labels label [] t rfl hrun halive)⟩

/-- Accounting: a step that adds less than one to the cost takes something off
the measure, so the length of a run is paid by its cost and the measure it
begins with. -/
theorem length_le (Inv : σ → Prop) (measure : σ → Nat) (cost : ε → Nat)
    (hstep : ∀ t label u, Inv t → step t label u →
      Inv u ∧ measure u + 1 ≤ measure t + cost label)
    (hstart : Inv s) {labels : List ε} (hrun : Steps step s labels t) :
    Inv t ∧ labels.length + measure t ≤ measure s + (labels.map cost).sum := by
  induction hrun with
  | refl => exact ⟨hstart, by simp⟩
  | snoc _ hlast ih =>
      obtain ⟨hinv, hlength⟩ := ih
      obtain ⟨hinv', hpaid⟩ := hstep _ _ _ hinv hlast
      refine ⟨hinv', ?_⟩
      rw [List.map_append, List.sum_append, List.length_append, List.map_singleton,
        List.sum_singleton, List.length_singleton]
      omega

end Steps

end IrBridge.Foundation
