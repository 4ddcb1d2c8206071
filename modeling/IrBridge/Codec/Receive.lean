/-
  Codec/Receive.lean --- the frames a receiver takes, and the cuts of the
  transport.

  A receiver that only records the frames it takes is `receiveFrames`; handed
  its words in blocks it is `receiveBlocks`.  The two agree for every cut
  (`receiveBlocks_flatten`): a call may stop in the middle of a block on a frame
  end with or without data, or because the block ran out, and none of it matters.
-/
import IrBridge.Codec.Decode

set_option autoImplicit false

namespace IrBridge.Codec

open IrBridge.Foundation
open IrBridge.Platform

/-- The receive loop that records `BUFF` on each return of 1, run over one block
of whole words (`len` is its size in bytes). -/
def receiveFrames (P : Protocol) (st : DecodeState) (ws : List LircT) :
    Except Fault (DecodeState × List CString) :=
  receiveLoop P (fun frames st => frames ++ [st.taken]) ws (sizeofLircT * ws.length) st []

/-- The same receiver run block after block. -/
def receiveBlocks (P : Protocol) : DecodeState → List (List LircT) →
    Except Fault (DecodeState × List CString)
  | st, [] => .ok (st, [])
  | st, block :: blocks => do
      let first ← receiveFrames P st block
      let rest ← receiveBlocks P first.1 blocks
      return (rest.1, first.2 ++ rest.2)

theorem foldl_append_singleton {α : Type} (start frames : List α) :
    frames.foldl (fun acc frame => acc ++ [frame]) start = start ++ frames := by
  induction frames generalizing start with
  | nil => simp
  | cons frame frames ih => simp [ih]

/-- The recording receiver is the word machine. -/
theorem receiveFrames_eq_run (P : Protocol) (st : DecodeState) (ws : List LircT) :
    receiveFrames P st ws = .ok (P.wordMachine.run st ws) := by
  unfold receiveFrames sizeofLircT
  rw [receiveLoop_eq_run P (fun frames frame => frames ++ [frame]),
    foldl_append_singleton, List.nil_append]

theorem receiveBlocks_eq_run (P : Protocol) (st : DecodeState)
    (blocks : List (List LircT)) :
    receiveBlocks P st blocks = .ok (P.wordMachine.runBlocks st blocks) := by
  induction blocks generalizing st with
  | nil => rfl
  | cons block blocks ih =>
      rw [receiveBlocks, receiveFrames_eq_run, Transducer.runBlocks]
      show (receiveBlocks P (P.wordMachine.run st block).1 blocks >>= _) = _
      rw [ih]
      rfl

/-- Block after block or all at once: the same frames, the same final state. -/
theorem receiveBlocks_flatten (P : Protocol) (st : DecodeState)
    (blocks : List (List LircT)) :
    receiveBlocks P st blocks = receiveFrames P st blocks.flatten := by
  rw [receiveBlocks_eq_run, receiveFrames_eq_run, Transducer.runBlocks_eq_run]

/-- Handed the bytes a transport delivered, and their number, the receive loop
returns exactly when they are whole words.  Otherwise it reads past them. -/
theorem receiveLoop_ok_iff {σ : Type} (P : Protocol) (body : σ → DecodeState → σ)
    (bytes : List Byte) (st : DecodeState) (s : σ) :
    (∃ out, receiveLoop P body (wordsOf bytes) bytes.length st s = .ok out) ↔
      4 ∣ bytes.length := by
  have hwords := length_wordsOf bytes
  constructor
  · rintro ⟨out, hout⟩
    by_contra hodd
    rw [receiveLoop_unaligned P body _ (by omega)] at hout
    cases hout
  · intro hwhole
    have hlen : bytes.length = 4 * (wordsOf bytes).length := by omega
    rw [hlen]
    exact ⟨_, receiveLoop_eq_foldl P body _ st s⟩

/-- With a body that may fault: they are whole words, and the body goes through their
frames. -/
theorem receiveLoopIn_ok_iff {σ : Type} (P : Protocol) (body : σ → CString → Except Fault σ)
    (bytes : List Byte) (st : DecodeState) (s : σ) (out : DecodeState × σ) :
    receiveLoopIn P (fun s st => body s st.taken) (wordsOf bytes) bytes.length st s = .ok out ↔
      4 ∣ bytes.length ∧ out.1 = (P.wordMachine.run st (wordsOf bytes)).1 ∧
        (P.wordMachine.run st (wordsOf bytes)).2.foldlM body s = .ok out.2 := by
  have hwords := length_wordsOf bytes
  by_cases hwhole : 4 ∣ bytes.length
  · have hlen : bytes.length = 4 * (wordsOf bytes).length := by omega
    rw [and_iff_right hwhole, hlen, receiveLoopIn_eq_run]
    cases (P.wordMachine.run st (wordsOf bytes)).2.foldlM body s with
    | error e => exact iff_of_false (fun h => by cases h) fun h => by cases h.2
    | ok t =>
        rw [Except.map, Except.ok.injEq, Except.ok.injEq, Prod.ext_iff]
        exact and_congr_left fun _ => eq_comm
  · obtain ⟨e, he⟩ := receiveLoopIn_unaligned P (fun s st => body s st.taken) (wordsOf bytes)
      (n := bytes.length) (by omega) st s
    rw [he]
    exact iff_of_false (fun h => by cases h) fun h => hwhole h.1

/-- A caller that handles each block with the receive loop of `P` and does
`body` with the frames does it, over all blocks, with the frames of the word
machine over all words. -/
theorem foldlM_blocksIn {σ β : Type} (P : Protocol) (body : σ → CString → Except Fault σ)
    (words : β → List LircT) {f : DecodeState × σ → β → Except Fault (DecodeState × σ)}
    (blocks : List β)
    (hf : ∀ now, ∀ block ∈ blocks, f now block =
      ((P.wordMachine.run now.1 (words block)).2.foldlM body now.2).map
        ((P.wordMachine.run now.1 (words block)).1, ·))
    (st : DecodeState) (s : σ) :
    blocks.foldlM f (st, s) =
      ((P.wordMachine.run st (blocks.flatMap words)).2.foldlM body s).map
        ((P.wordMachine.run st (blocks.flatMap words)).1, ·) := by
  induction blocks generalizing st s with
  | nil => rfl
  | cons block blocks ih =>
      rw [List.foldlM_cons, hf (st, s) block List.mem_cons_self, List.flatMap_cons,
        Transducer.run_append, List.foldlM_append]
      cases (P.wordMachine.run st (words block)).2.foldlM body s with
      | error e => rfl
      | ok s' => exact ih (fun now b hb => hf now b (List.mem_cons_of_mem block hb)) _ s'

/-- The same for a body that cannot fault. -/
theorem foldlM_blocks {σ β : Type} (P : Protocol) (body : σ → CString → σ)
    (words : β → List LircT) {f : DecodeState × σ → β → Except Fault (DecodeState × σ)}
    (blocks : List β)
    (hf : ∀ now, ∀ block ∈ blocks, f now block =
      .ok ((P.wordMachine.run now.1 (words block)).1,
        (P.wordMachine.run now.1 (words block)).2.foldl body now.2))
    (st : DecodeState) (s : σ) :
    blocks.foldlM f (st, s) =
      .ok ((P.wordMachine.run st (blocks.flatMap words)).1,
        (P.wordMachine.run st (blocks.flatMap words)).2.foldl body s) := by
  have hpure : ∀ (frames : List CString) (s : σ),
      frames.foldlM (fun s frame => (.ok (body s frame) : Except Fault σ)) s =
        .ok (frames.foldl body s) := fun _ _ => List.foldlM_pure
  have hrun := foldlM_blocksIn P (fun s frame => .ok (body s frame)) words blocks
    (fun now block hblock => (hf now block hblock).trans
      (by rw [hpure, Except.map])) st s
  rwa [hpure, Except.map] at hrun

/-- Both decoders are chunk independent: block after block and all at once take
the same frames and leave the same buffer and index, from every decoder state. -/
theorem decoders_chunk_independent (st : DecodeState) (blocks : List (List LircT)) :
    (∃ final frames,
      receiveBlocks nec st blocks = .ok (final, frames) ∧
        receiveFrames nec st blocks.flatten = .ok (final, frames)) ∧
    (∃ final frames,
      receiveBlocks unkn0 st blocks = .ok (final, frames) ∧
        receiveFrames unkn0 st blocks.flatten = .ok (final, frames)) := by
  have hcut : ∀ P : Protocol, ∃ final frames,
      receiveBlocks P st blocks = .ok (final, frames) ∧
        receiveFrames P st blocks.flatten = .ok (final, frames) := by
    intro P
    have hall := receiveFrames_eq_run P st blocks.flatten
    exact ⟨_, _, (receiveBlocks_flatten P st blocks).trans hall, hall⟩
  exact ⟨hcut nec, hcut unkn0⟩

end IrBridge.Codec
