/-
  Client/Android.lean --- the Android client and its native bridge.

  The Java loop keeps the received bytes in an `IRBuffer`.  Each native call
  copies the array, decodes from its start, and writes back a new array with the
  bytes that were not consumed.  `figureLoop_eq_receiveLoop` says that this is the C
  receive loop over the same bytes, and `frameLoop_eq_receiveLoopIn` that it is with
  whatever is done with a frame.

  Here a frame's bytes are what `string2bytes` returns.  They reach Java through
  the block of `String2Bytes`, which Client/AndroidBlocks.lean puts between.
-/
import IrBridge.Codec.Encode
import IrBridge.Codec.Receive
import IrBridge.Scale.Figure

set_option autoImplicit false

namespace IrBridge.Client

open IrBridge.Foundation
open IrBridge.Codec
open IrBridge.Platform
open IrBridge.Scale

/-! ## The native bridge -/

/-- `IRBuffer`. -/
structure IRBuffer where
  buffer : List Byte
  len : Int

/-- `available`. -/
def IRBuffer.available (ir : IRBuffer) : Bool := decide (ir.len > 0)

/-- `IRBuffer_write`: a new array of `size` bytes from `buff`. -/
def irBufferWrite (buff : List Byte) (size : Nat) : IRBuffer where
  buffer := if size = 0 then [] else buff.take size
  len := toInt size

/-- What a native decode call returns to Java. -/
structure NativeDecoded where
  ret : Nat
  ir : IRBuffer
  state : DecodeState

/-- The text of the native decode calls: `IRBuffer_read`, the decoder, and
`IRBuffer_write`. -/
def nativeDecode (dm : DataModel) (P : Protocol) (ir : IRBuffer) (st : DecodeState) :
    Except Fault NativeDecoded := do
  let size := toSize dm ir.len
  let words := wordsOf (ir.buffer.take size)
  let r ← decode P words size st
  let consumed := words.length - r.pIn.length
  return ⟨r.ret, irBufferWrite (ir.buffer.drop (4 * consumed)) r.pLen, r.state⟩

/-- `Java_com_jdodev_ircodec_IRcodec_NecDecode`. -/
def nativeNecDecode (dm : DataModel) : IRBuffer → DecodeState → Except Fault NativeDecoded :=
  nativeDecode dm nec

/-- `Java_com_jdodev_ircodec_IRcodec_Unkn0Decode`.  The received bytes are the
first `len` of the array; `progress_buff` stands `4 * consumed` bytes into it. -/
def nativeUnkn0Decode (dm : DataModel) (ir : IRBuffer) (st : DecodeState) :
    Except Fault NativeDecoded := do
  let size := toSize dm ir.len
  let words := wordsOf (ir.buffer.take size)
  let r ← unkn0Decode words size st
  let consumed := words.length - r.pIn.length
  return ⟨r.ret, irBufferWrite (ir.buffer.drop (4 * consumed)) r.pLen, r.state⟩

/-- A native call that leaves bytes available leaves fewer bytes. -/
theorem nativeDecode_consumes {P : Protocol} {dm : DataModel} {ir : IRBuffer}
    {st : DecodeState} {r : NativeDecoded} (h : nativeDecode dm P ir st = .ok r)
    (hleft : r.ir.available = true) : r.ir.buffer.length < ir.buffer.length := by
  obtain ⟨d, hd, hr⟩ := bind_eq_ok h
  obtain rfl := Except.ok.inj hr
  have hpos : 0 < d.pLen := by
    by_contra hzero
    have hnil : toInt (d.pLen : Int) = 0 := by
      rw [Nat.eq_zero_of_not_pos hzero]
      exact toInt_of_range (by decide) (by decide)
    simp [irBufferWrite, IRBuffer.available, hnil] at hleft
  have hwords := decode_consumes hd hpos
  have hlen := length_wordsOf (ir.buffer.take (toSize dm ir.len))
  rw [List.length_take] at hlen
  simp only [irBufferWrite, if_neg (Nat.ne_of_gt hpos), List.length_take, List.length_drop]
  omega

/-- A native call on the first `n` bytes of an array does what the decoder does
with them: it fails where the decoder does. -/
theorem nativeDecode_error (dm : DataModel) {P : Protocol} (buffer : List Byte) {n : Nat}
    (hint : (n : Int) ≤ intMax) {st : DecodeState} {e : Fault}
    (hcall : decode P (wordsOf (buffer.take n)) n st = .error e) :
    nativeDecode dm P ⟨buffer, n⟩ st = .error e := by
  have hmax : intMax = 2147483647 := rfl
  have hsize : toSize dm n = n := by
    rw [toSize_of_range dm (by omega) (by omega), Int.toNat_natCast]
  rw [nativeDecode, hsize, hcall]
  rfl

/-- Where the decoder returns, the call writes back what follows the `k` words it
consumed. -/
theorem nativeDecode_ok (dm : DataModel) {P : Protocol} (buffer : List Byte) {n : Nat}
    (hint : (n : Int) ≤ intMax) {st : DecodeState} {d : Decoded}
    (hcall : decode P (wordsOf (buffer.take n)) n st = .ok d) {k : Nat}
    (hrest : d.pIn = (wordsOf (buffer.take n)).drop k)
    (hk : k ≤ (wordsOf (buffer.take n)).length) :
    nativeDecode dm P ⟨buffer, n⟩ st =
      .ok ⟨d.ret, irBufferWrite (buffer.drop (4 * k)) d.pLen, d.state⟩ := by
  have hmax : intMax = 2147483647 := rfl
  have hsize : toSize dm n = n := by
    rw [toSize_of_range dm (by omega) (by omega), Int.toNat_natCast]
  have hconsumed : (wordsOf (buffer.take n)).length - d.pIn.length = k := by
    rw [hrest, List.length_drop]
    omega
  rw [nativeDecode, hsize, hcall, ok_bind, hconsumed, pure_eq_ok]

theorem irBufferWrite_available (buff : List Byte) {size : Nat} (hint : (size : Int) ≤ intMax) :
    (irBufferWrite buff size).available = decide (0 < size) := by
  rw [irBufferWrite, IRBuffer.available, toInt_of_range (Int.natCast_nonneg size) hint]
  exact decide_eq_decide.mpr Int.natCast_pos

/-! ## The screen -/

/-- What `OnDataReceived` does with a frame. -/
inductive ScreenEvent where
  /-- `setTextColor` and `setText(weight+"Kg")` -/
  | text (color : BitVec 32) (weight : Rat)
  /-- `Log.e` with the wrong check value -/
  | logError (f : Figure)
  deriving DecidableEq

/-- The branches after the tests. -/
def screenEvents : Verdict → List ScreenEvent
  | .accepted f =>
      [.text (if f.head &&& 0x80 = 0x80 then 0xff000000#32 else 0xff00ff00#32) f.weight]
  | .rejected f => [.logError f]
  | .other => []

/-- A frame that was taken, what was made of it, and what was shown. -/
structure Displayed where
  frame : CString
  verdict : Verdict
  events : List ScreenEvent
  deriving DecidableEq

/-- The body of the loop. -/
def figureFrame (shown : List Displayed) (decodedbits : CString) : List Displayed :=
  shown ++ [⟨decodedbits, figureVerdict decodedbits, screenEvents (figureVerdict decodedbits)⟩]

/-! ## The Java loop -/

theorem nativeUnkn0Decode_eq (dm : DataModel) :
    nativeUnkn0Decode dm = nativeDecode dm unkn0 := rfl

theorem nativeUnkn0Decode_consumes {dm : DataModel} {ir : IRBuffer} {st : DecodeState}
    {r : NativeDecoded} (h : nativeUnkn0Decode dm ir st = .ok r)
    (hleft : r.ir.available = true) : r.ir.buffer.length < ir.buffer.length := by
  rw [nativeUnkn0Decode_eq] at h
  exact nativeDecode_consumes h hleft

/-- `do { if (Unkn0Decode(ir)==1) { ... Unkn0DecodeReset(); } } while(ir.available())`. -/
def figureLoop (dm : DataModel) (ir : IRBuffer) (st : DecodeState)
    (shown : List Displayed) : Except Fault (DecodeState × List Displayed) :=
  match _hcall : nativeUnkn0Decode dm ir st with
  | .error e => .error e
  | .ok r =>
      let next := if r.ret = 1 then (unkn0DecodeReset r.state, figureFrame shown r.state.taken)
        else (r.state, shown)
      if _hleft : r.ir.available then figureLoop dm r.ir next.1 next.2 else .ok next
termination_by ir.buffer.length
decreasing_by exact nativeUnkn0Decode_consumes _hcall _hleft

/-- The arguments of `OnDataReceived`: an array and how many of its bytes were
received.  A Java array has at most 2^31 - 1 elements. -/
structure Received where
  data : List Byte
  sz : Nat
  fits : sz ≤ data.length
  java : (data.length : Int) ≤ intMax

/-- `OnDataReceived(data, sz)`. -/
def onDataReceived (dm : DataModel) (received : Received)
    (now : DecodeState × List Displayed) : Except Fault (DecodeState × List Displayed) :=
  figureLoop dm ⟨received.data, received.sz⟩ now.1 now.2

/-- The same loop, with what is done with a frame. -/
def frameLoop {σ : Type} (dm : DataModel) (body : σ → CString → Except Fault σ)
    (ir : IRBuffer) (st : DecodeState) (s : σ) : Except Fault (DecodeState × σ) :=
  match _hcall : nativeUnkn0Decode dm ir st with
  | .error e => .error e
  | .ok r =>
      (if r.ret = 1 then (body s r.state.taken).map (unkn0DecodeReset r.state, ·)
        else .ok (r.state, s)) >>= fun next =>
      if _hleft : r.ir.available then frameLoop dm body r.ir next.1 next.2 else .ok next
termination_by ir.buffer.length
decreasing_by exact nativeUnkn0Decode_consumes _hcall _hleft

section FrameLoop

variable {σ : Type} {dm : DataModel} (body : σ → CString → Except Fault σ)

theorem frameLoop_of_error {ir : IRBuffer} {st : DecodeState} {e : Fault}
    (h : nativeUnkn0Decode dm ir st = .error e) (s : σ) :
    frameLoop dm body ir st s = .error e := by
  rw [frameLoop]
  split
  · rename_i e' he'
    rw [h] at he'
    exact congrArg _ (Except.error.inj he').symm
  · rename_i r hr
    rw [h] at hr
    cases hr

theorem frameLoop_of_ok {ir : IRBuffer} {st : DecodeState} {d : Decoded} {next : IRBuffer}
    (h : nativeUnkn0Decode dm ir st = .ok ⟨d.ret, next, d.state⟩) (s : σ) :
    frameLoop dm body ir st s =
      (afterCallIn (fun s st => body s st.taken) d s >>= fun after =>
        if next.available then frameLoop dm body next after.1 after.2 else .ok after) := by
  conv_lhs => rw [frameLoop]
  split
  · rename_i e he
    rw [h] at he
    cases he
  · rename_i r hr
    rw [h] at hr
    cases hr
    rfl

end FrameLoop

/-- What is done with a frame does not fault in `figureLoop`. -/
theorem figureLoop_eq_frameLoop (dm : DataModel) (ir : IRBuffer) (st : DecodeState)
    (shown : List Displayed) :
    figureLoop dm ir st shown =
      frameLoop dm (fun shown frame => .ok (figureFrame shown frame)) ir st shown := by
  fun_induction figureLoop dm ir st shown with
  | case1 ir st shown e hcall => rw [frameLoop_of_error _ hcall]
  | case2 ir st shown r hcall next hleft ih =>
      have hafter : afterCallIn (fun shown st => .ok (figureFrame shown st.taken))
          ⟨r.ret, [], 0, r.state⟩ shown = .ok next :=
        afterCallIn_ok (fun shown st => figureFrame shown st.taken) _ _
      rw [frameLoop_of_ok (d := ⟨r.ret, [], 0, r.state⟩) _ hcall, hafter, ok_bind, if_pos hleft]
      exact ih
  | case3 ir st shown r hcall next hleft =>
      have hafter : afterCallIn (fun shown st => .ok (figureFrame shown st.taken))
          ⟨r.ret, [], 0, r.state⟩ shown = .ok next :=
        afterCallIn_ok (fun shown st => figureFrame shown st.taken) _ _
      rw [frameLoop_of_ok (d := ⟨r.ret, [], 0, r.state⟩) _ hcall, hafter, ok_bind, if_neg hleft]

theorem wordsOf_drop : ∀ (k : Nat) (bytes : List Byte),
    wordsOf (bytes.drop (4 * k)) = (wordsOf bytes).drop k
  | 0, bytes => rfl
  | k + 1, b0 :: b1 :: b2 :: b3 :: bytes => by
      rw [wordsOf, List.drop_succ_cons, ← wordsOf_drop k bytes]
      rfl
  | k + 1, [] => rfl
  | k + 1, [_] => by simp [wordsOf, Nat.mul_succ]
  | k + 1, [_, _] => by simp [wordsOf, Nat.mul_succ]
  | k + 1, [_, _, _] => by simp [wordsOf, Nat.mul_succ]

/-- The Java loop is the C loop over the received bytes. -/
theorem frameLoop_eq_receiveLoopIn {σ : Type} (dm : DataModel)
    (body : σ → CString → Except Fault σ) (buffer : List Byte) {n : Nat}
    (hn : n ≤ buffer.length) (hint : (n : Int) ≤ intMax) (st : DecodeState) (s : σ) :
    frameLoop dm body ⟨buffer, n⟩ st s =
      receiveLoopIn unkn0 (fun s st => body s st.taken) (wordsOf (buffer.take n)) n st s := by
  induction hlen : buffer.length using Nat.strong_induction_on generalizing buffer n st s with
  | _ m ih =>
      cases hcall : decode unkn0 (wordsOf (buffer.take n)) n st with
      | error e =>
          rw [receiveLoopIn_of_error _ _ hcall,
            frameLoop_of_error _ (nativeDecode_error dm buffer hint hcall)]
      | ok d =>
          obtain ⟨k, hrest, hk, hleft, _⟩ := decode_progress hcall
          have hint' : (d.pLen : Int) ≤ intMax := by omega
          have hnative : nativeUnkn0Decode dm ⟨buffer, n⟩ st = .ok ⟨d.ret, _, d.state⟩ :=
            nativeDecode_ok dm buffer hint hcall hrest hk
          rw [receiveLoopIn_of_ok _ _ hcall, frameLoop_of_ok _ hnative,
            irBufferWrite_available _ hint']
          by_cases hpos : 0 < d.pLen
          · -- The new array holds exactly the bytes after the consumed words.
            have hwrite : irBufferWrite (buffer.drop (4 * k)) d.pLen =
                ⟨(buffer.drop (4 * k)).take d.pLen, d.pLen⟩ := by
              rw [irBufferWrite, if_neg (Nat.ne_of_gt hpos),
                toInt_of_range (Int.natCast_nonneg _) hint']
            have hwords : wordsOf (((buffer.drop (4 * k)).take d.pLen).take d.pLen) = d.pIn := by
              rw [List.take_take, Nat.min_self, hrest, ← wordsOf_drop, List.drop_take,
                show n - 4 * k = d.pLen by omega]
            have hshorter := nativeUnkn0Decode_consumes hnative
              (by rw [irBufferWrite_available _ hint']; exact decide_eq_true hpos)
            rw [hwrite] at hshorter ⊢
            simp only [decide_eq_true hpos, if_true, if_pos hpos]
            congr 1
            funext after
            have hnext := ih _ (hlen ▸ hshorter) ((buffer.drop (4 * k)).take d.pLen)
              (by rw [List.length_take, List.length_drop]; omega) hint' after.1 after.2 rfl
            rw [hwords] at hnext
            exact hnext
          · simp only [decide_eq_false hpos, Bool.false_eq_true, if_false, if_neg hpos, pure_eq_ok]

theorem figureLoop_eq_receiveLoop (dm : DataModel) (buffer : List Byte) {n : Nat}
    (hn : n ≤ buffer.length) (hint : (n : Int) ≤ intMax) (st : DecodeState)
    (shown : List Displayed) :
    figureLoop dm ⟨buffer, n⟩ st shown =
      receiveLoop unkn0 (fun shown st => figureFrame shown st.taken)
        (wordsOf (buffer.take n)) n st shown := by
  rw [figureLoop_eq_frameLoop, frameLoop_eq_receiveLoopIn dm _ buffer hn hint,
    receiveLoop_eq_receiveLoopIn]

/-- `OnDataReceived` is the receive loop over the bytes received. -/
theorem onDataReceived_eq_receiveLoop (dm : DataModel) (received : Received)
    (now : DecodeState × List Displayed) :
    onDataReceived dm received now =
      receiveLoop unkn0 (fun shown st => figureFrame shown st.taken)
        (wordsOf (received.data.take received.sz)) received.sz now.1 now.2 := by
  have hfits := received.fits
  have hjava := received.java
  exact figureLoop_eq_receiveLoop dm received.data hfits (by omega) now.1 now.2

/-! ## Blocks of whole words -/

/-- Whole words that fit a Java array. -/
structure JavaBlock where
  words : List LircT
  java : (4 * words.length : Int) ≤ intMax

theorem JavaBlock.bytes_le (block : JavaBlock) :
    ((bytesOf block.words).length : Int) ≤ intMax := by
  have hjava := block.java
  rw [length_bytesOf]
  omega

/-- The block as an argument. -/
def JavaBlock.received (block : JavaBlock) : Received where
  data := bytesOf block.words
  sz := sizeofLircT * block.words.length
  fits := Nat.le_of_eq (length_bytesOf block.words).symm
  java := block.bytes_le

/-- The client fed with blocks of whole words, one `OnDataReceived` call each. -/
def figureBlocks (dm : DataModel) (now : DecodeState × List Displayed)
    (blocks : List JavaBlock) : Except Fault (DecodeState × List Displayed) :=
  blocks.foldlM (fun now block => onDataReceived dm block.received now) now

theorem foldl_figureFrame (shown : List Displayed) (frames : List CString) :
    frames.foldl figureFrame shown = shown ++ frames.map
      fun frame => ⟨frame, figureVerdict frame, screenEvents (figureVerdict frame)⟩ := by
  induction frames generalizing shown with
  | nil => simp
  | cons frame frames ih =>
      rw [List.foldl_cons, ih, figureFrame, List.append_assoc, List.singleton_append,
        List.map_cons]

/-- The client sees the frames of the word machine, whatever the blocks. -/
theorem figureBlocks_eq_run (dm : DataModel) (st : DecodeState) (shown : List Displayed)
    (blocks : List JavaBlock) :
    figureBlocks dm (st, shown) blocks =
      .ok ((unkn0.wordMachine.run st (blocks.flatMap JavaBlock.words)).1,
        (unkn0.wordMachine.run st (blocks.flatMap JavaBlock.words)).2.foldl
          figureFrame shown) := by
  apply foldlM_blocks unkn0 figureFrame JavaBlock.words blocks
  intro now block _
  have hall : (bytesOf block.words).take (4 * block.words.length) = bytesOf block.words :=
    List.take_of_length_le (by rw [length_bytesOf])
  rw [onDataReceived_eq_receiveLoop]
  change receiveLoop _ _ (wordsOf ((bytesOf block.words).take (4 * block.words.length)))
    (4 * block.words.length) _ _ = _
  rw [hall, wordsOf_bytesOf, receiveLoop_eq_run]

end IrBridge.Client
