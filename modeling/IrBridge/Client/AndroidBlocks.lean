/-
  Client/AndroidBlocks.lean --- `OnDataReceived` with the blocks of `String2Bytes`.

  The Android client hands every frame it takes to `String2Bytes`, before it looks
  at its length.  With that call as it is, the loop goes through a stream exactly
  when the block of samples has room for the words of each frame, and then it
  shows what Client/Android.lean says (`figureBlocksIn_ok_iff`).  Nothing in the
  sources gives the block that room.
-/
import IrBridge.Client.Android
import IrBridge.Client.BitsBridge

set_option autoImplicit false

namespace IrBridge.Client

open IrBridge.Foundation
open IrBridge.Codec
open IrBridge.Platform
open IrBridge.Scale

/-! ## The tests on Java integers -/

/-- `(~decoded[i]) & 0xFF`. -/
def complementJava (d : BitVec 32) : Nat := (~~~d &&& 0xFF#32).toNat

/-- `if (decoded[0]==0x54) { ... if (sumFF==check) ... }` on the elements of a Java
array. -/
def examineJava : List (BitVec 32) → Verdict
  | d0 :: d1 :: d2 :: d3 :: d4 :: _ =>
      if d0 = 0x54#32 then
        let f : Figure :=
          ⟨complementJava d0, complementJava d1, complementJava d2, complementJava d3,
            complementJava d4⟩
        if sumFF f.sum = f.check then .accepted f else .rejected f
      else .other
  | _ => .other

theorem complementJava_setWidth (d : Byte) : complementJava (d.setWidth 32) = complement d := by
  revert d
  decide +kernel

theorem setWidth_eq_trailer_iff (d : Byte) : d.setWidth 32 = 0x54#32 ↔ d = 0x54#8 := by
  revert d
  decide +kernel

/-- They are the tests on the samples. -/
theorem examineJava_map (samples : List Byte) :
    examineJava (samples.map (BitVec.setWidth 32)) = examine samples := by
  match samples with
  | d0 :: d1 :: d2 :: d3 :: d4 :: rest =>
      simp only [List.map_cons, examineJava, examine, complementJava_setWidth, figureOf]
      exact if_congr (setWidth_eq_trailer_iff d0) rfl rfl
  | [] => rfl
  | [_] => rfl
  | [_, _] => rfl
  | [_, _, _] => rfl
  | [_, _, _, _] => rfl

/-! ## The loop -/

/-- The body of the loop, from `String2Bytes` on. -/
def figureFrameIn (dm : DataModel) (alloc : Allocator) (shown : List Displayed)
    (decodedbits : CString) : Except Fault (List Displayed) := do
  let decoded ← nativeString2Bytes dm alloc (some decodedbits)
  let verdict := if decodedbits.strlen = 39 then examineJava (decoded.getD []) else .other
  return shown ++ [⟨decodedbits, verdict, screenEvents verdict⟩]

/-- The loop of `OnDataReceived`. -/
def figureLoopIn (dm : DataModel) (alloc : Allocator) :
    IRBuffer → DecodeState → List Displayed → Except Fault (DecodeState × List Displayed) :=
  frameLoop dm (figureFrameIn dm alloc)

/-- `OnDataReceived(data, sz)`. -/
def onDataReceivedIn (dm : DataModel) (alloc : Allocator) (received : Received)
    (now : DecodeState × List Displayed) : Except Fault (DecodeState × List Displayed) :=
  figureLoopIn dm alloc ⟨received.data, received.sz⟩ now.1 now.2

/-- The client fed with blocks of whole words, one `OnDataReceived` call each. -/
def figureBlocksIn (dm : DataModel) (alloc : Allocator) (now : DecodeState × List Displayed)
    (blocks : List JavaBlock) : Except Fault (DecodeState × List Displayed) :=
  blocks.foldlM (fun now block => onDataReceivedIn dm alloc block.received now) now

/-- A frame is handled if and only if it has room, and then as `figureFrame` does. -/
theorem figureFrameIn_ok_iff {dm : DataModel} {alloc : Allocator} {shown t : List Displayed}
    {decodedbits : CString} :
    figureFrameIn dm alloc shown decodedbits = .ok t ↔
      HasRoom alloc decodedbits ∧ t = figureFrame shown decodedbits := by
  have hhandled : HasRoom alloc decodedbits →
      figureFrameIn dm alloc shown decodedbits = .ok (figureFrame shown decodedbits) := by
    intro hroom
    rw [figureFrameIn, nativeString2Bytes_of_room dm hroom, ok_bind, Option.getD_some,
      examineJava_map, figureFrame, figureVerdict, pure_eq_ok]
  constructor
  · intro h
    obtain ⟨decoded, hdecoded, _⟩ := bind_eq_ok h
    have hroom := (nativeString2Bytes_ok_iff dm alloc decodedbits).mp ⟨decoded, hdecoded⟩
    exact ⟨hroom, Except.ok.inj (h.symm.trans (hhandled hroom))⟩
  · rintro ⟨hroom, rfl⟩
    exact hhandled hroom

/-- On blocks of whole words the client does the body with the frames of the word
machine. -/
theorem figureBlocksIn_eq_run (dm : DataModel) (alloc : Allocator) (st : DecodeState)
    (shown : List Displayed) (blocks : List JavaBlock) :
    figureBlocksIn dm alloc (st, shown) blocks =
      ((unkn0.wordMachine.run st (blocks.flatMap JavaBlock.words)).2.foldlM
        (figureFrameIn dm alloc) shown).map
          ((unkn0.wordMachine.run st (blocks.flatMap JavaBlock.words)).1, ·) := by
  refine foldlM_blocksIn unkn0 _ JavaBlock.words blocks (fun now block _ => ?_) st shown
  have hfits := block.received.fits
  have hjava := block.received.java
  have hall : (bytesOf block.words).take (4 * block.words.length) = bytesOf block.words :=
    List.take_of_length_le (by rw [length_bytesOf])
  rw [onDataReceivedIn, figureLoopIn, frameLoop_eq_receiveLoopIn dm _ _ hfits (by omega)]
  change receiveLoopIn _ _ (wordsOf ((bytesOf block.words).take (4 * block.words.length)))
    (4 * block.words.length) _ _ = _
  rw [hall, wordsOf_bytesOf, receiveLoopIn_eq_run]

/-- The client goes through the blocks if and only if every frame it takes has room,
and then it shows what the loop without the blocks shows. -/
theorem figureBlocksIn_ok_iff {dm : DataModel} {alloc : Allocator} {st : DecodeState}
    {shown : List Displayed} {blocks : List JavaBlock} {out : DecodeState × List Displayed} :
    figureBlocksIn dm alloc (st, shown) blocks = .ok out ↔
      (∀ frame ∈ (unkn0.wordMachine.run st (blocks.flatMap JavaBlock.words)).2,
        HasRoom alloc frame) ∧ figureBlocks dm (st, shown) blocks = .ok out := by
  rw [figureBlocksIn_eq_run, figureBlocks_eq_run]
  generalize unkn0.wordMachine.run st (blocks.flatMap JavaBlock.words) = run
  have hframes : ∀ t, run.2.foldlM (figureFrameIn dm alloc) shown = .ok t ↔
      (∀ frame ∈ run.2, HasRoom alloc frame) ∧ t = run.2.foldl figureFrame shown := by
    intro t
    have hguarded : run.2.foldlM (figureFrameIn dm alloc) shown = .ok t ↔
        Guarded figureFrame (fun _ => HasRoom alloc) shown run.2 ∧
          t = run.2.foldl figureFrame shown :=
      foldlM_guarded fun _ _ _ => figureFrameIn_ok_iff
    rw [hguarded, guarded_const_iff]
  constructor
  · intro h
    cases hfold : run.2.foldlM (figureFrameIn dm alloc) shown with
    | error e =>
        rw [hfold] at h
        cases h
    | ok t =>
        rw [hfold] at h
        obtain ⟨hroom, rfl⟩ := (hframes t).mp hfold
        exact ⟨hroom, h⟩
  · rintro ⟨hroom, h⟩
    rw [(hframes _).mpr ⟨hroom, rfl⟩]
    exact h

end IrBridge.Client
