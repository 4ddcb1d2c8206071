/-
  Foundation/Joining.lean --- pieces that are joined while they go on.

  A reader that is handed pieces, each marked as the last of its line or not,
  appends them and hands out the line with its last piece.  What it appended of a
  line that is not finished stays with it.

  How a line was cut into pieces leaves no trace (`run_cut`), and every length
  that occurs on the way is a length of a line or of the rest (`lt_of_lines`).
-/
import IrBridge.Foundation.Transducer

set_option autoImplicit false

namespace IrBridge.Foundation

namespace Joining

variable {α : Type}

/-- The joiner.  A piece comes with the mark that it goes on. -/
def machine : Transducer (List α) (List α × Bool) (List α) where
  step acc piece := if piece.2 then (acc ++ piece.1, []) else ([], [acc ++ piece.1])

theorem run_cons_open (acc piece : List α) (pieces : List (List α × Bool)) :
    machine.run acc ((piece, true) :: pieces) = machine.run (acc ++ piece) pieces :=
  rfl

theorem run_cons_closed (acc piece : List α) (pieces : List (List α × Bool)) :
    machine.run acc ((piece, false) :: pieces) =
      ((machine.run [] pieces).1, (acc ++ piece) :: (machine.run [] pieces).2) :=
  rfl

/-- A piece that is cut in two gives the same lines. -/
theorem run_cut (acc front back : List α) (goesOn : Bool) (pieces : List (List α × Bool)) :
    machine.run acc ((front, true) :: (back, goesOn) :: pieces) =
      machine.run acc ((front ++ back, goesOn) :: pieces) := by
  rw [run_cons_open]
  cases goesOn with
  | true => rw [run_cons_open, run_cons_open, List.append_assoc]
  | false => rw [run_cons_closed, run_cons_closed, List.append_assoc]

/-- All lines, the unfinished one included. -/
def lines (acc : List α) (pieces : List (List α × Bool)) : List (List α) :=
  (machine.run acc pieces).2 ++ [(machine.run acc pieces).1]

theorem lines_cons_open (acc piece : List α) (pieces : List (List α × Bool)) :
    lines acc ((piece, true) :: pieces) = lines (acc ++ piece) pieces := by
  rw [lines, run_cons_open, lines]

theorem lines_cons_closed (acc piece : List α) (pieces : List (List α × Bool)) :
    lines acc ((piece, false) :: pieces) = (acc ++ piece) :: lines [] pieces := by
  rw [lines, run_cons_closed, lines, List.cons_append]

/-- What has been appended so far is no longer than some line. -/
theorem lt_of_lines {n : Nat} {acc : List α} {pieces : List (List α × Bool)}
    (h : ∀ line ∈ lines acc pieces, line.length < n) : acc.length < n := by
  induction pieces generalizing acc with
  | nil => exact h acc (List.mem_singleton_self acc)
  | cons piece pieces ih =>
      obtain ⟨piece, goesOn⟩ := piece
      cases goesOn with
      | true =>
          rw [lines_cons_open] at h
          have hlen := ih h
          rw [List.length_append] at hlen
          omega
      | false =>
          rw [lines_cons_closed] at h
          have hlen := h (acc ++ piece) List.mem_cons_self
          rw [List.length_append] at hlen
          omega

end Joining

end IrBridge.Foundation
