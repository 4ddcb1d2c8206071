/-
  Client/Display.lean --- what the two clients show for one stream.

  The Linux client complements the samples of a 39-bit frame, looks at the first
  one, and prints a weight.  The Android client looks at the first sample and the
  check value before it shows one, and logs an error when the check value is
  wrong.  So the Linux client prints a weight for every frame for which the
  Android client does either, and for no other frame.

  The Linux client counts the bits of a frame with the index of the decoder where
  the Android client takes the length of the string.  In the states a decoder can
  be in the two are the same number.
-/
import IrBridge.Client.Agreement
import IrBridge.Client.Linux

set_option autoImplicit false

namespace IrBridge.Client

open IrBridge.Foundation
open IrBridge.Codec
open IrBridge.Platform
open IrBridge.Scale

/-! ## One frame -/

/-- The samples of a frame that starts with 0x54, whatever its check value. -/
def figure? : Verdict → Option Figure
  | .accepted f => some f
  | .rejected f => some f
  | .other => none

theorem figure?_examine (d0 d1 d2 d3 d4 : Byte) :
    figure? (examine [d0, d1, d2, d3, d4]) =
      if d0 = 0x54#8 then some (figureOf d0 d1 d2 d3 d4) else none := by
  rw [examine]
  by_cases htrail : d0 = 0x54#8
  · rw [if_pos htrail, if_pos htrail]
    dsimp only
    split <;> rfl
  · rw [if_neg htrail, if_neg htrail]
    rfl

/-- The body of the Linux client, for a frame that was taken. -/
def linuxTaken (shown : List Rat) (buff : CString) : List Rat :=
  shown ++ ((figure? (figureVerdict buff)).map Figure.weight).toList

theorem complement_eq_trailer_iff (d : Byte) : ~~~d = 0xAB#8 ↔ d = 0x54#8 := by
  have hab : 0xAB#8 = ~~~0x54#8 := by decide
  rw [hab, BitVec.not_inj]

/-- On a 39-bit frame both clients look at the same five samples. -/
theorem samples_of_length {bits : List Bool} (hlen : bits.length = 39) :
    ∃ d0 d1 d2 d3 d4 : Byte, BitPacking.pack bits = [d0, d1, d2, d3, d4] := by
  have hfive : (BitPacking.pack bits : List Byte).length = 5 := by
    rw [BitPacking.length_pack, BitPacking.wordCount, hlen]
  exact exists_samples hfive

/-- The Android client's test on the bits a decoder holds. -/
theorem figureVerdict_ofBits (bits : List Bool) :
    figureVerdict (CString.ofBits bits) =
      if bits.length = 39 then examine (BitPacking.pack bits) else .other := by
  have hmax : intMax = 2147483647 := rfl
  unfold figureVerdict
  simp only [CString.strlen_ofBits]
  by_cases hlen : bits.length = 39
  · have hpack := string2bytes_eq_pack (s := CString.ofBits bits)
      (by rw [CString.strlen_ofBits]; omega) (by rw [CString.strlen_ofBits]; omega)
    rw [if_pos hlen, if_pos hlen, hpack, CString.bits_ofBits, Option.getD_some]
  · rw [if_neg hlen, if_neg hlen]

/-- The Linux client's test on them. -/
theorem linuxFrame_of_length {st : DecodeState} {bits : List Bool} (h : Holds st bits)
    (hlen : bits.length = 39) (shown : List Rat) {d0 d1 d2 d3 d4 : Byte}
    (hsamples : BitPacking.pack bits = [d0, d1, d2, d3, d4]) :
    linuxFrame shown st =
      if d0 = 0x54#8 then shown ++ [(figureOf d0 d1 d2 d3 d4).weight] else shown := by
  have hmax : intMax = 2147483647 := rfl
  have hpack := string2bytes_eq_pack (s := CString.ofBits bits)
    (by rw [CString.strlen_ofBits]; omega) (by rw [CString.strlen_ofBits]; omega)
  rw [CString.bits_ofBits, hsamples] at hpack
  have hidx : st.idx = 39 := h.idx_eq.trans hlen
  unfold linuxFrame
  rw [if_pos hidx, h.taken_eq, hpack]
  exact if_congr (complement_eq_trailer_iff d0) rfl rfl

/-- The Linux client, in any state a decoder can be in. -/
theorem linuxFrame_eq {st : DecodeState} {bits : List Bool} (h : Holds st bits)
    (shown : List Rat) : linuxFrame shown st = linuxTaken shown st.taken := by
  rw [linuxTaken, h.taken_eq, figureVerdict_ofBits]
  by_cases hlen : bits.length = 39
  · obtain ⟨d0, d1, d2, d3, d4, hsamples⟩ := samples_of_length hlen
    rw [linuxFrame_of_length h hlen shown hsamples, if_pos hlen, hsamples, figure?_examine]
    by_cases htrail : d0 = 0x54#8
    · rw [if_pos htrail, if_pos htrail]
      rfl
    · rw [if_neg htrail, if_neg htrail]
      exact (List.append_nil shown).symm
  · have hidx : ¬ st.idx = 39 := fun hidx => hlen (h.idx_eq.symm.trans hidx)
    unfold linuxFrame
    rw [if_neg hidx, if_neg hlen]
    exact (List.append_nil shown).symm

/-! ## Streams -/

/-- A body that reads the index of a decoder may as well read the string, in the
states a decoder can be in. -/
theorem foldl_wordStep_congr {σ : Type} (P : Protocol) {body : σ → DecodeState → σ}
    {body' : σ → CString → σ}
    (hbody : ∀ st bits s, Holds st bits → body s st = body' s st.taken)
    (ws : List LircT) {st : DecodeState} {bits : List Bool} (h : Holds st bits) (s : σ) :
    ws.foldl (wordStep P body) (st, s) =
      ws.foldl (wordStep P fun s st => body' s st.taken) (st, s) := by
  induction ws generalizing st bits s with
  | nil => rfl
  | cons data rest ih =>
      have hnext := (step_refines P st bits data h).1
      have hword : wordStep P body (st, s) data =
          wordStep P (fun s st => body' s st.taken) (st, s) data := by
        rw [wordStep, wordStep, hbody st bits s h]
      have hstate : (wordStep P (fun s st => body' s st.taken) (st, s) data).1 =
          (P.wordMachine.step st data).1 := by
        rw [wordStep, Protocol.wordMachine]
        dsimp only
        split
        · split <;> rfl
        · rfl
      rw [List.foldl_cons, List.foldl_cons, hword]
      rw [← hstate] at hnext
      exact ih hnext _

/-- The Linux client fed with what `recv` returned, one pass of its loop each. -/
def linuxBlocks (dm : DataModel) (now : DecodeState × List Rat) (buffers : List Recv) :
    Except Fault (DecodeState × List Rat) :=
  buffers.foldlM (fun now buffer => linuxReceive dm buffer now) now

/-- The words of what was received. -/
def recvWords (buffers : List Recv) : List LircT := buffers.flatMap fun r => wordsOf r.bytes

/-- One pass of the Linux client over whole words. -/
theorem linuxReceive_eq_run (dm : DataModel) {st : DecodeState} {bits : List Bool}
    (h : Holds st bits) (shown : List Rat) {buffer : Recv} (hwhole : 4 ∣ buffer.bytes.length) :
    linuxReceive dm buffer (st, shown) =
      .ok ((unkn0.wordMachine.run st (wordsOf buffer.bytes)).1,
        (unkn0.wordMachine.run st (wordsOf buffer.bytes)).2.foldl linuxTaken shown) := by
  have hfits := buffer.fits
  have hwords := length_wordsOf buffer.bytes
  rw [bufSize] at hfits
  have hsize : toSize dm buffer.bytes.length = 4 * (wordsOf buffer.bytes).length := by
    rw [toSize_of_range dm (by omega) (by omega), Int.toNat_natCast]
    omega
  rw [linuxReceive, hsize, receiveLoop_eq_foldl,
    foldl_wordStep_congr unkn0 (fun _ _ s h => linuxFrame_eq h s) _ h, foldl_wordStep]

/-- The Linux client sees the frames of the word machine, however they were cut
into whole words. -/
theorem linuxBlocks_eq_run (dm : DataModel) {st : DecodeState} {bits : List Bool}
    (h : Holds st bits) (shown : List Rat) {buffers : List Recv}
    (hwhole : ∀ buffer ∈ buffers, 4 ∣ buffer.bytes.length) :
    linuxBlocks dm (st, shown) buffers =
      .ok ((unkn0.wordMachine.run st (recvWords buffers)).1,
        (unkn0.wordMachine.run st (recvWords buffers)).2.foldl linuxTaken shown) := by
  induction buffers generalizing st bits shown with
  | nil => rfl
  | cons buffer buffers ih =>
      have hnext := (run_refines unkn0 h (wordsOf buffer.bytes)).1
      have hrest := ih hnext
        ((unkn0.wordMachine.run st (wordsOf buffer.bytes)).2.foldl linuxTaken shown)
        fun other hother => hwhole other (List.mem_cons_of_mem buffer hother)
      rw [linuxBlocks, List.foldlM_cons,
        linuxReceive_eq_run dm h shown (hwhole buffer List.mem_cons_self), ok_bind, recvWords,
        List.flatMap_cons, Transducer.run_append, List.foldl_append]
      exact hrest

theorem foldl_linuxTaken (shown : List Rat) (frames : List CString) :
    frames.foldl linuxTaken shown = shown ++ frames.filterMap
      fun buff => (figure? (figureVerdict buff)).map Figure.weight := by
  induction frames generalizing shown with
  | nil => exact (List.append_nil shown).symm
  | cons buff frames ih =>
      rw [List.foldl_cons, ih, linuxTaken, List.append_assoc]
      cases hfigure : figure? (figureVerdict buff) with
      | none =>
          rw [List.filterMap_cons_none (by rw [hfigure]; rfl)]
          rfl
      | some f =>
          rw [List.filterMap_cons_some (by rw [hfigure]; rfl)]
          rfl

/-- The Android client does nothing with a frame that does not start with
0x54. -/
theorem screenEvents_eq_nil_iff (verdict : Verdict) :
    screenEvents verdict = [] ↔ figure? verdict = none := by
  cases verdict with
  | other => exact iff_of_true rfl rfl
  | rejected f => exact iff_of_false (List.cons_ne_nil _ _) (Option.some_ne_none f)
  | accepted f => exact iff_of_false (List.cons_ne_nil _ _) (Option.some_ne_none f)

/-- On one stream, cut into whole words in any way for either of them, the Linux
client prints the weight of every frame that the Android client, in blocks with
room, shows or logs as an error, in the same order, and of no other frame. -/
theorem linux_prints_unchecked (dm : DataModel) {alloc : Allocator}
    (hroom : ∀ n ≤ 128, sizeofJint * n ≤ alloc.usable n) {st : DecodeState}
    (hst : Reachable unkn0 st) (printed : List Rat) (shown : List Displayed)
    {buffers : List Recv} {blocks : List JavaBlock}
    (hwhole : ∀ buffer ∈ buffers, 4 ∣ buffer.bytes.length)
    (hsame : recvWords buffers = blocks.flatMap JavaBlock.words) :
    ∃ st' new, linuxBlocks dm (st, printed) buffers =
        .ok (st', printed ++ new.filterMap fun d => (figure? d.verdict).map Figure.weight) ∧
      figureBlocksIn dm alloc (st, shown) blocks = .ok (st', shown ++ new) ∧
      ∀ d ∈ new, d.events = [] ↔ figure? d.verdict = none := by
  obtain ⟨bits, hbits⟩ := hst.holds
  have hlinux := linuxBlocks_eq_run dm hbits printed hwhole
  have handroid := figureBlocks_eq_run dm st shown blocks
  rw [hsame, foldl_linuxTaken] at hlinux
  rw [foldl_figureFrame] at handroid
  refine ⟨_, _, hlinux.trans ?_,
    figureBlocksIn_ok_iff.mpr ⟨hasRoom_frames hroom unkn0 st _, handroid⟩, ?_⟩
  · rw [List.filterMap_map]
    rfl
  · intro d hd
    obtain ⟨buff, _, rfl⟩ := List.mem_map.mp hd
    exact screenEvents_eq_nil_iff _

/-- 88.3 kg with a wrong check value, played back. -/
def wrongCheck : List LircT :=
  playback (unkn0Wave.words (CString.ofBits
    ((BitPacking.unpack [0x54#8, 0x7F#8, 0xFC#8, 0x8C#8, 0x00#8]).take 39)).chars) ++
    [space 77000]

/-- The Linux client prints it in two reads, the Android client logs it. -/
theorem linux_prints_unchecked_wrong :
    ∃ st' new, linuxBlocks .lp64 (DecodeState.start, [])
        [⟨bytesOf (wrongCheck.take 7), by decide, by decide⟩,
          ⟨bytesOf (wrongCheck.drop 7), by decide +kernel, by decide +kernel⟩] =
        .ok (st', [] ++ new.filterMap fun d => (figure? d.verdict).map Figure.weight) ∧
      figureBlocksIn .lp64 .roomy (DecodeState.start, []) [⟨wrongCheck, by decide⟩] =
        .ok (st', [] ++ new) ∧
      ∀ d ∈ new, d.events = [] ↔ figure? d.verdict = none := by
  refine linux_prints_unchecked .lp64 (fun _ _ => Nat.le_refl _) .start [] [] ?_ ?_
  · simp only [List.mem_cons, List.not_mem_nil, or_false, forall_eq_or_imp, forall_eq,
      length_bytesOf]
    exact ⟨⟨_, rfl⟩, ⟨_, rfl⟩⟩
  · simp [recvWords]

end IrBridge.Client
