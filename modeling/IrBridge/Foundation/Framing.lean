/-
  Foundation/Framing.lean --- delimiter framing with a bounded buffer.

  The abstract receiver behind both infrared decoders.  A stream of symbols is
  cut into frames by delimiters: a datum is appended to the buffer (and dropped
  once the buffer holds `cap` of them), a neutral symbol is ignored, and a
  delimiter hands out the buffer when it is not empty and always leaves it empty.

  The data are over an arbitrary type; nothing here knows about pulses.
-/
import IrBridge.Foundation.Transducer

set_option autoImplicit false

namespace IrBridge.Foundation

/-- What one letter of the input means to a framed receiver. -/
inductive Symbol (α : Type) where
  /-- ends the frame in progress, if there is one -/
  | delimiter
  /-- one item of payload -/
  | datum (a : α)
  /-- carries nothing -/
  | neutral
  deriving DecidableEq, Repr

namespace Framing

variable {α : Type}

/-- The payload of a symbol stream. -/
def payload (xs : List (Symbol α)) : List α :=
  xs.filterMap fun
    | .datum a => some a
    | _ => none

/-- A stretch of input inside one frame. -/
def NoDelimiter (xs : List (Symbol α)) : Prop := Symbol.delimiter ∉ xs

/-- Closing a buffer hands it out unless it is empty. -/
def close (buf : List α) : List (List α) := if buf.isEmpty then [] else [buf]

/-- Appending a datum drops it once the buffer is full. -/
def store (cap : Nat) (buf : List α) (a : α) : List α :=
  if buf.length < cap then buf ++ [a] else buf

/-- The framed receiver. -/
def machine (cap : Nat) : Transducer (List α) (Symbol α) (List α) where
  step
    | buf, .delimiter => ([], close buf)
    | buf, .datum a => (store cap buf a, [])
    | buf, .neutral => (buf, [])

/-- A delimiter hands out the buffer and restarts from an empty one. -/
theorem run_cons_delimiter (cap : Nat) (buf : List α) (xs : List (Symbol α)) :
    (machine cap).run buf (.delimiter :: xs) =
      (((machine cap).run [] xs).1, close buf ++ ((machine cap).run [] xs).2) :=
  rfl

theorem run_cons_datum (cap : Nat) (buf : List α) (a : α) (xs : List (Symbol α)) :
    (machine cap).run buf (.datum a :: xs) =
      (machine cap).run (store cap buf a) xs :=
  rfl

theorem run_cons_neutral (cap : Nat) (buf : List α) (xs : List (Symbol α)) :
    (machine cap).run buf (.neutral :: xs) = (machine cap).run buf xs :=
  rfl

@[simp] theorem close_nil : close ([] : List α) = [] := rfl

theorem close_of_ne_nil {buf : List α} (h : buf ≠ []) : close buf = [buf] := by
  cases buf with
  | nil => exact absurd rfl h
  | cons a buf => rfl

theorem mem_close {buf frame : List α} :
    frame ∈ close buf ↔ frame = buf ∧ buf ≠ [] := by
  cases buf <;> simp [close]

@[simp] theorem payload_nil : payload ([] : List (Symbol α)) = [] := rfl

@[simp] theorem payload_cons_datum (a : α) (xs : List (Symbol α)) :
    payload (.datum a :: xs) = a :: payload xs := rfl

@[simp] theorem payload_cons_neutral (xs : List (Symbol α)) :
    payload (.neutral :: xs) = payload xs := rfl

@[simp] theorem payload_append (xs ys : List (Symbol α)) :
    payload (xs ++ ys) = payload xs ++ payload ys := by
  simp [payload]

@[simp] theorem payload_replicate_neutral (n : Nat) :
    payload (List.replicate n (Symbol.neutral : Symbol α)) = [] := by
  induction n with
  | zero => rfl
  | succ n ih => rw [List.replicate_succ, payload_cons_neutral, ih]

theorem NoDelimiter.head_tail {x : Symbol α} {xs : List (Symbol α)}
    (h : NoDelimiter (x :: xs)) : x ≠ .delimiter ∧ NoDelimiter xs := by
  simp only [NoDelimiter, List.mem_cons, not_or] at h
  exact ⟨fun hx => h.1 hx.symm, h.2⟩

/-! ## Inside one frame -/

theorem store_eq_take {cap : Nat} {buf : List α} (h : buf.length ≤ cap) (a : α) :
    store cap buf a = (buf ++ [a]).take cap := by
  unfold store
  split
  · rename_i hlt
    rw [List.take_of_length_le (by simp; omega)]
  · rw [List.take_append_of_le_length (by omega), List.take_of_length_le h]

theorem length_store_le {cap : Nat} {buf : List α} (h : buf.length ≤ cap) (a : α) :
    (store cap buf a).length ≤ cap := by
  rw [store_eq_take h]
  exact List.length_take_le _ _

/-- Between delimiters the machine is silent and accumulates the payload, up
to its capacity. -/
theorem run_of_noDelimiter {cap : Nat} {xs : List (Symbol α)}
    (hxs : NoDelimiter xs) {buf : List α} (hbuf : buf.length ≤ cap) :
    (machine cap).run buf xs = ((buf ++ payload xs).take cap, []) := by
  induction xs generalizing buf with
  | nil => simp [List.take_of_length_le hbuf]
  | cons x xs ih =>
      obtain ⟨hx, hrest⟩ := hxs.head_tail
      cases x with
      | delimiter => exact absurd rfl hx
      | neutral =>
          rw [run_cons_neutral]
          exact ih hrest hbuf
      | datum a =>
          have hstored := ih hrest (length_store_le hbuf a)
          have htake : (store cap buf a ++ payload xs).take cap =
              (buf ++ a :: payload xs).take cap := by
            unfold store
            split
            · simp
            · rw [List.take_append_of_le_length (by omega),
                List.take_append_of_le_length (by omega)]
          rw [run_cons_datum, hstored, htake]
          rfl

/-- No buffer and no frame outgrows the capacity. -/
theorem run_length_le {cap : Nat} {buf : List α} (hbuf : buf.length ≤ cap)
    (xs : List (Symbol α)) :
    ((machine cap).run buf xs).1.length ≤ cap ∧
      ∀ frame ∈ ((machine cap).run buf xs).2, frame.length ≤ cap := by
  refine Transducer.run_invariant (machine cap) (fun buf => buf.length ≤ cap)
    (fun frame => frame.length ≤ cap) (fun buf x _ hbuf => ?_) hbuf
  cases x with
  | delimiter =>
      refine ⟨Nat.zero_le cap, fun frame hframe => ?_⟩
      rw [(mem_close.mp hframe).1]
      exact hbuf
  | datum a => exact ⟨length_store_le hbuf a, fun _ hframe => absurd hframe List.not_mem_nil⟩
  | neutral => exact ⟨hbuf, fun _ hframe => absurd hframe List.not_mem_nil⟩

/-- After a delimiter nothing of the past is left. -/
theorem run_append_delimiter_state (cap : Nat) (buf : List α)
    (xs : List (Symbol α)) :
    ((machine cap).run buf (xs ++ [.delimiter])).1 = [] := by
  rw [Transducer.run_append]
  rfl

/-! ## Two receivers of one stream -/

theorem length_close_le (buf : List α) : (close buf).length ≤ 1 := by
  cases buf with
  | nil => exact Nat.zero_le 1
  | cons a buf => exact Nat.le_refl 1

/-- Two receivers of one stream hand out the same frames, except for the frame
each was in when the stream began. -/
theorem run_resync (cap : Nat) (buf buf' : List α) (xs : List (Symbol α)) :
    ∃ first first' common, ((machine cap).run buf xs).2 = first ++ common ∧
      ((machine cap).run buf' xs).2 = first' ++ common ∧
      first.length ≤ 1 ∧ first'.length ≤ 1 := by
  induction xs generalizing buf buf' with
  | nil => exact ⟨[], [], [], rfl, rfl, Nat.zero_le 1, Nat.zero_le 1⟩
  | cons x xs ih =>
      cases x with
      | delimiter =>
          -- Both buffers are empty from here on.
          exact ⟨close buf, close buf', ((machine cap).run [] xs).2, rfl, rfl,
            length_close_le buf, length_close_le buf'⟩
      | datum a => exact ih (store cap buf a) (store cap buf' a)
      | neutral => exact ih buf buf'

/-! ## Streams of frames -/

/-- One frame on the wire: `lead` delimiters, the body, one closing delimiter. -/
def framed (lead : Nat) (xs : List (Symbol α)) : List (Symbol α) :=
  List.replicate lead .delimiter ++ xs ++ [.delimiter]

/-- Leading delimiters flush what was left over and nothing else. -/
theorem run_lead (cap lead : Nat) (hlead : lead ≠ 0) (buf : List α)
    (xs : List (Symbol α)) :
    (machine cap).run buf (List.replicate lead .delimiter ++ xs) =
      (((machine cap).run [] xs).1, close buf ++ ((machine cap).run [] xs).2) := by
  induction lead generalizing buf with
  | zero => exact absurd rfl hlead
  | succ n ih =>
      rw [List.replicate_succ, List.cons_append, run_cons_delimiter]
      by_cases hn : n = 0
      · subst hn
        rfl
      · rw [ih hn []]
        simp

/-- From an empty buffer a stream of frames comes back body by body, each
truncated to the capacity. -/
theorem run_framed_nil {cap : Nat} (lead : Nat) {bodies : List (List (Symbol α))}
    (hbodies : ∀ xs ∈ bodies, NoDelimiter xs) :
    (machine cap).run [] (bodies.flatMap (framed lead)) =
      ([], bodies.flatMap fun xs => close ((payload xs).take cap)) := by
  induction bodies with
  | nil => rfl
  | cons xs bodies ih =>
      have hxs : NoDelimiter xs := hbodies xs List.mem_cons_self
      have hbody : (machine cap).run [] (framed lead xs) =
          ([], close ((payload xs).take cap)) := by
        have htail : (machine cap).run [] (xs ++ [.delimiter]) =
            ([], close ((payload xs).take cap)) := by
          rw [Transducer.run_append, run_of_noDelimiter hxs (Nat.zero_le cap),
            run_cons_delimiter]
          simp
        unfold framed
        rw [List.append_assoc]
        by_cases hlead : lead = 0
        · subst hlead
          exact htail
        · rw [run_lead cap lead hlead, htail]
          rfl
      rw [List.flatMap_cons, Transducer.run_append, hbody,
        ih fun ys hys => hbodies ys (List.mem_cons_of_mem xs hys)]
      rfl

/-- With at least one leading delimiter the same holds from any buffer, whose
contents come out first. -/
theorem run_framed {cap lead : Nat} (hlead : lead ≠ 0)
    {bodies : List (List (Symbol α))} (hne : bodies ≠ [])
    (hbodies : ∀ xs ∈ bodies, NoDelimiter xs) (buf : List α) :
    (machine cap).run buf (bodies.flatMap (framed lead)) =
      ([], close buf ++ bodies.flatMap fun xs => close ((payload xs).take cap)) := by
  have hnil : (machine cap).run [] (bodies.flatMap (framed lead)) = _ :=
    run_framed_nil lead hbodies
  cases bodies with
  | nil => exact absurd rfl hne
  | cons xs bodies =>
      rw [List.flatMap_cons, framed, List.append_assoc, List.append_assoc,
        run_lead cap lead hlead] at hnil ⊢
      obtain ⟨hstate, hframes⟩ := Prod.mk.inj hnil
      rw [close_nil, List.nil_append] at hframes
      rw [hstate, hframes]

/-- Frames that differ in the number of their leading delimiters come back the
same way. -/
theorem run_framed_leads {cap : Nat} {frames : List (Nat × List (Symbol α))}
    (hbodies : ∀ f ∈ frames, NoDelimiter f.2) :
    (machine cap).run [] (frames.flatMap fun f => framed f.1 f.2) =
      ([], frames.flatMap fun f => close ((payload f.2).take cap)) := by
  induction frames with
  | nil => rfl
  | cons f frames ih =>
      have hone : ∀ xs ∈ [f.2], NoDelimiter xs := by
        simpa using hbodies f List.mem_cons_self
      have hfirst : (machine cap).run [] ([f.2].flatMap (framed f.1)) = _ :=
        run_framed_nil f.1 hone
      rw [List.flatMap_singleton, List.flatMap_singleton] at hfirst
      rw [List.flatMap_cons, Transducer.run_append, hfirst,
        ih fun f' hf' => hbodies f' (List.mem_cons_of_mem f hf')]
      rfl

/-! ## Marked frames -/

/-- Either nothing was collected yet or the first item is the mark. -/
def Marked (mark : α) (buf : List α) : Prop := buf = [] ∨ buf.head? = some mark

/-- A piece of a marked stream: neutral symbols, the mark, a body without
delimiters, and one arbitrary last symbol. -/
def markedPiece (mark : α) (lead : Nat) (xs : List (Symbol α)) (last : Symbol α) :
    List (Symbol α) :=
  List.replicate lead .neutral ++ .datum mark :: xs ++ [last]

theorem head?_append_take {mark : α} {cap : Nat} (hcap : 0 < cap) {buf : List α}
    (hbuf : Marked mark buf) (xs : List α) :
    ((buf ++ mark :: xs).take cap).head? = some mark := by
  obtain ⟨n, rfl⟩ : ∃ n, cap = n + 1 := ⟨cap - 1, by omega⟩
  rcases hbuf with rfl | hhead
  · rfl
  · cases buf with
    | nil => simp at hhead
    | cons b buf => simpa using hhead

/-- Whatever separates the pieces of a marked stream, a delimiter, a datum or
nothing, every frame handed out starts with the mark. -/
theorem run_marked {mark : α} {cap : Nat} (hcap : 0 < cap) (lead : Nat)
    {pieces : List (List (Symbol α) × Symbol α)}
    (hpieces : ∀ p ∈ pieces, NoDelimiter p.1) {buf : List α}
    (hlen : buf.length ≤ cap) (hbuf : Marked mark buf) :
    ∀ frame ∈ ((machine cap).run buf
        (pieces.flatMap fun p => markedPiece mark lead p.1 p.2)).2,
      frame.head? = some mark := by
  induction pieces generalizing buf with
  | nil => simp
  | cons p pieces ih =>
      obtain ⟨xs, last⟩ := p
      have hxs : NoDelimiter (List.replicate lead .neutral ++ .datum mark :: xs) := by
        have := hpieces (xs, last) List.mem_cons_self
        simpa [NoDelimiter] using this
      have hpayload : payload (List.replicate lead .neutral ++ .datum mark :: xs) =
          mark :: payload xs := by
        rw [payload_append, payload_replicate_neutral]
        rfl
      -- `full` is the buffer just before the symbol that ends the piece.
      generalize hfull : (buf ++ mark :: payload xs).take cap = full
      have hmark : full.head? = some mark := by
        rw [← hfull]
        exact head?_append_take hcap hbuf _
      have hfullLen : full.length ≤ cap := by
        rw [← hfull]
        exact List.length_take_le _ _
      have hbody : (machine cap).run buf (markedPiece mark lead xs last) =
          ((machine cap).run full [last]) := by
        rw [markedPiece, Transducer.run_append, run_of_noDelimiter hxs hlen, hpayload,
          hfull]
        simp
      have hrest : ∀ p ∈ pieces, NoDelimiter p.1 :=
        fun p hp => hpieces p (List.mem_cons_of_mem _ hp)
      intro frame hframe
      rw [List.flatMap_cons, Transducer.run_append, hbody, List.mem_append] at hframe
      cases last with
      | delimiter =>
          rcases hframe with hframe | hframe
          · rw [run_cons_delimiter] at hframe
            have hclosed : frame ∈ close full := by simpa using hframe
            rw [(mem_close.mp hclosed).1]
            exact hmark
          · have hempty : ([] : List α).length ≤ cap := Nat.zero_le cap
            exact ih hrest hempty (Or.inl rfl) frame hframe
      | neutral =>
          rcases hframe with hframe | hframe
          · exact absurd hframe List.not_mem_nil
          · exact ih hrest hfullLen (Or.inr hmark) frame hframe
      | datum a =>
          rcases hframe with hframe | hframe
          · exact absurd hframe List.not_mem_nil
          · refine ih hrest (length_store_le hfullLen a) (Or.inr ?_) frame hframe
            show (store cap full a).head? = some mark
            cases full with
            | nil => simp at hmark
            | cons b full =>
                unfold store
                split <;> simpa using hmark

end Framing

end IrBridge.Foundation
