/-
  Foundation/Blocks.lean --- counted loops over the elements of blocks of memory.

  A loop `for (i = 0; i < n; i++)` of turns that may fail is a fold over
  `List.range n`.  Two rules are all that is needed of it: if every turn leads from
  one of a given sequence of states to the next, the loop ends in the last of them
  (`countedLoop_ok`); and if it ends at all, every turn was taken
  (`countedLoop_turn`).  Turns that succeed exactly under a guard make a loop that
  succeeds exactly when the guard holds all along (`foldlM_guarded`).

  A block is the number of its bytes, or nothing for a null pointer.  What it holds
  is kept beside it, as the list of what has been stored.
-/
import Mathlib.Data.List.Basic

set_option autoImplicit false

namespace IrBridge.Foundation

section CountedLoops

variable {ε σ : Type} {step : σ → Nat → Except ε σ}

/-- One more turn. -/
theorem countedLoop_succ (s : σ) (n : Nat) :
    (List.range (n + 1)).foldlM step s = ((List.range n).foldlM step s >>= (step · n)) := by
  rw [List.range_succ, List.foldlM_append]
  congr 1
  funext t
  rw [List.foldlM_cons]
  cases step t n with
  | error e => rfl
  | ok u => rfl

/-- A loop whose turns lead from state to state ends in the last one. -/
theorem countedLoop_ok (state : Nat → σ) {n : Nat}
    (hstep : ∀ i < n, step (state i) i = .ok (state (i + 1))) :
    (List.range n).foldlM step (state 0) = .ok (state n) := by
  induction n with
  | zero => rfl
  | succ n ih =>
      rw [countedLoop_succ, ih fun i hi => hstep i (Nat.lt_succ_of_lt hi)]
      exact hstep n (Nat.lt_succ_self n)

/-- A loop that ends has taken each of its turns. -/
theorem countedLoop_turn {s r : σ} {n : Nat} (h : (List.range n).foldlM step s = .ok r)
    {i : Nat} (hi : i < n) :
    ∃ t u, (List.range i).foldlM step s = .ok t ∧ step t i = .ok u := by
  induction n generalizing r with
  | zero => exact absurd hi (Nat.not_lt_zero i)
  | succ n ih =>
      rw [countedLoop_succ] at h
      cases hinit : (List.range n).foldlM step s with
      | error e =>
          rw [hinit] at h
          cases h
      | ok t =>
          rw [hinit] at h
          rcases Nat.lt_succ_iff_lt_or_eq.mp hi with hlt | rfl
          · exact ih hinit hlt
          · exact ⟨t, r, hinit, h⟩

/-- Turns that succeed or fail whatever has been done before: the loop succeeds if
all of them do. -/
theorem foldlM_ok_iff {α : Type} {turn : σ → α → Except ε σ} {good : α → Prop} {as : List α}
    (hturn : ∀ s, ∀ a ∈ as, (∃ t, turn s a = .ok t) ↔ good a) (s : σ) :
    (∃ r, as.foldlM turn s = .ok r) ↔ ∀ a ∈ as, good a := by
  induction as generalizing s with
  | nil => exact ⟨fun _ a ha => absurd ha List.not_mem_nil, fun _ => ⟨s, rfl⟩⟩
  | cons a as ih =>
      have hfirst := hturn s a List.mem_cons_self
      have hrest := ih fun t b hb => hturn t b (List.mem_cons_of_mem a hb)
      rw [List.foldlM_cons, List.forall_mem_cons, ← hfirst]
      cases hstep : turn s a with
      | error e =>
          constructor
          · rintro ⟨r, hr⟩
            cases hr
          · rintro ⟨⟨t, ht⟩, _⟩
            cases ht
      | ok t =>
          rw [← hrest t]
          exact ⟨fun h => ⟨⟨t, rfl⟩, h⟩, fun h => h.2⟩

/-- Turns that each append to what has been collected: the loop collects it all. -/
theorem foldlM_collect {α β : Type} {turn : List β → α → Except ε (List β)} {as : List α}
    (found : α → List β) (hturn : ∀ s, ∀ a ∈ as, turn s a = .ok (s ++ found a)) (s : List β) :
    as.foldlM turn s = .ok (s ++ as.flatMap found) := by
  induction as generalizing s with
  | nil => rw [List.flatMap_nil, List.append_nil]; rfl
  | cons a as ih =>
      have hrest := ih (fun t b hb => hturn t b (List.mem_cons_of_mem a hb)) (s ++ found a)
      rw [List.foldlM_cons, hturn s a List.mem_cons_self, List.flatMap_cons,
        ← List.append_assoc]
      exact hrest

/-- Turns that each set a variable or leave it as it is: it ends with what the last
turn that sets it sets it to. -/
theorem foldlM_last {α β : Type} {turn : σ → α → Except ε σ} (get : σ → β) (sets : α → Bool)
    (value : α → β)
    (hturn : ∀ s a t, turn s a = .ok t → get t = if sets a then value a else get s)
    {as : List α} {s r : σ} (hrun : as.foldlM turn s = .ok r) :
    get r = ((as.filter sets).getLast?.map value).getD (get s) := by
  induction as generalizing s with
  | nil =>
      cases hrun
      rfl
  | cons a as ih =>
      rw [List.foldlM_cons] at hrun
      cases hfirst : turn s a with
      | error e =>
          rw [hfirst] at hrun
          cases hrun
      | ok t =>
          rw [hfirst] at hrun
          rw [ih hrun, hturn s a t hfirst]
          cases hsets : sets a with
          | false => rw [List.filter_cons_of_neg (by simp [hsets]), if_neg Bool.false_ne_true]
          | true =>
              rw [List.filter_cons_of_pos hsets, List.getLast?_cons, if_pos rfl]
              cases (as.filter sets).getLast? with
              | none => rfl
              | some b => rfl

/-- The guard holds at every turn of a loop, in the state the turns before it lead
to. -/
def Guarded {α : Type} (next : σ → α → σ) (guard : σ → α → Prop) : σ → List α → Prop
  | _, [] => True
  | s, a :: as => guard s a ∧ Guarded next guard (next s a) as

/-- Turns that succeed exactly under a guard: the loop succeeds if it is guarded, and
then does what the turns do. -/
theorem foldlM_guarded {α : Type} {turn : σ → α → Except ε σ} {next : σ → α → σ}
    {guard : σ → α → Prop} (hturn : ∀ s a t, turn s a = .ok t ↔ guard s a ∧ t = next s a)
    {as : List α} {s t : σ} :
    as.foldlM turn s = .ok t ↔ Guarded next guard s as ∧ t = as.foldl next s := by
  induction as generalizing s with
  | nil => exact ⟨fun h => ⟨trivial, (Except.ok.inj h).symm⟩, fun h => congrArg _ h.2.symm⟩
  | cons a as ih =>
      rw [List.foldlM_cons, Guarded, List.foldl_cons, and_assoc, ← ih]
      by_cases hguard : guard s a
      · rw [(hturn s a _).mpr ⟨hguard, rfl⟩]
        exact (and_iff_right hguard).symm
      · cases hstep : turn s a with
        | error e => exact iff_of_false (fun h => by cases h) fun h => hguard h.1
        | ok u => exact absurd ((hturn s a u).mp hstep).1 hguard

/-- A guard that only looks at the elements. -/
theorem guarded_const_iff {α : Type} {next : σ → α → σ} {good : α → Prop} {as : List α}
    {s : σ} : Guarded next (fun _ => good) s as ↔ ∀ a ∈ as, good a := by
  induction as generalizing s with
  | nil => exact iff_of_true trivial fun _ h => absurd h List.not_mem_nil
  | cons a as ih => rw [Guarded, ih, List.forall_mem_cons]

end CountedLoops

section Blocks

variable {ε α β : Type}

/-- The element `i` of a block whose elements take `width` bytes. -/
def access (null outside : ε) (block : Option Nat) (width i : Nat) : Except ε Unit :=
  match block with
  | none => .error null
  | some size => if width * (i + 1) ≤ size then .ok () else .error outside

theorem access_eq_ok_iff {null outside : ε} {block : Option Nat} {width i : Nat} :
    access null outside block width i = .ok () ↔
      ∃ size, block = some size ∧ width * (i + 1) ≤ size := by
  cases block with
  | none => exact ⟨fun h => (by cases h), fun ⟨_, h, _⟩ => (by cases h)⟩
  | some size =>
      rw [access]
      split
      · rename_i hin
        exact ⟨fun _ => ⟨size, rfl, hin⟩, fun _ => rfl⟩
      · rename_i hout
        refine ⟨fun h => (by cases h), fun ⟨_, h, hin⟩ => ?_⟩
        exact absurd (Option.some.inj h ▸ hin) hout

/-- The element `i` of what has been stored. -/
def readCell (outside : ε) (cells : List α) (i : Nat) : Except ε α :=
  match cells[i]? with
  | none => .error outside
  | some a => .ok a

theorem readCell_of_lt {outside : ε} {cells : List α} {i : Nat} (hi : i < cells.length) :
    readCell outside cells i = .ok cells[i] := by
  rw [readCell, List.getElem?_eq_getElem hi]

theorem readCell_of_le {outside : ε} {cells : List α} {i : Nat} (hi : cells.length ≤ i) :
    readCell outside cells i = .error outside := by
  rw [readCell, List.getElem?_eq_none hi]

/-- A loop that reads one element after another visits what has been stored. -/
theorem readLoop_eq {σ : Type} (outside : ε) (turn : σ → α → Except ε σ) {cells : List α}
    {n : Nat} (hn : n ≤ cells.length) (s : σ) :
    (List.range n).foldlM
      (fun s i => do
        let a ← readCell outside cells i
        turn s a)
      s = (cells.take n).foldlM turn s := by
  induction n with
  | zero => rfl
  | succ n ih =>
      rw [countedLoop_succ, ih (Nat.le_of_succ_le hn), readCell_of_lt hn, List.take_add_one,
        List.getElem?_eq_getElem hn, List.foldlM_append]
      congr 1
      funext t
      show turn t cells[n] = [cells[n]].foldlM turn t
      rw [List.foldlM_cons]
      cases turn t cells[n] with
      | error e => rfl
      | ok u => rfl

/-- `for (i = 0; i < count; i++) target[i] = f(source[i])`. -/
def convertLoop (unread null outside : ε) (target : Option Nat) (width : Nat) (f : α → β)
    (source : List α) (count : Nat) : Except ε (List β) :=
  (List.range count).foldlM
    (fun stored i => do
      let a ← readCell unread source i
      access null outside target width i
      return stored ++ [f a])
    []

/-- In a block that is large enough. -/
theorem convertLoop_ok {unread null outside : ε} {size width : Nat} (f : α → β)
    {source : List α} {count : Nat} (hsource : count ≤ source.length)
    (hsize : width * count ≤ size) :
    convertLoop unread null outside (some size) width f source count =
      .ok ((source.take count).map f) := by
  apply countedLoop_ok fun i => (source.take i).map f
  intro i hi
  have hlt : i < source.length := Nat.lt_of_lt_of_le hi hsource
  have hin : access null outside (some size) width i = .ok () :=
    access_eq_ok_iff.mpr ⟨size, rfl, Nat.le_trans (Nat.mul_le_mul_left width hi) hsize⟩
  rw [readCell_of_lt hlt]
  show (access null outside (some size) width i >>= fun _ => _) = _
  rw [hin, List.take_add_one, List.getElem?_eq_getElem hlt, List.map_append]
  rfl

/-- It stays in its block if and only if the block has room for all elements. -/
theorem convertLoop_ok_iff {unread null outside : ε} {target : Option Nat} {width : Nat}
    (f : α → β) {source : List α} {count : Nat} (hsource : count ≤ source.length) :
    (∃ stored, convertLoop unread null outside target width f source count = .ok stored) ↔
      count = 0 ∨ ∃ size, target = some size ∧ width * count ≤ size := by
  constructor
  · rintro ⟨stored, hloop⟩
    rcases Nat.eq_zero_or_pos count with hzero | hpos
    · exact .inl hzero
    · obtain ⟨t, u, _, hturn⟩ := countedLoop_turn hloop (Nat.sub_lt hpos Nat.one_pos)
      rw [readCell_of_lt (by omega)] at hturn
      change (access null outside target width (count - 1) >>= fun _ => _) = _ at hturn
      cases haccess : access null outside target width (count - 1) with
      | error e =>
          rw [haccess] at hturn
          cases hturn
      | ok _ =>
          obtain ⟨size, htarget, hsize⟩ := access_eq_ok_iff.mp haccess
          rw [Nat.sub_add_cancel hpos] at hsize
          exact .inr ⟨size, htarget, hsize⟩
  · rintro (hzero | ⟨size, htarget, hsize⟩)
    · rw [hzero]
      exact ⟨[], rfl⟩
    · rw [htarget]
      exact ⟨_, convertLoop_ok f hsource hsize⟩

end Blocks

end IrBridge.Foundation
