/-
  Codec/SelfTest.lean --- the codec's own test, for every input.

  `nec` and `unkn0` of the codec's `main.c` take two bytes through the whole
  library: bits, words, the words as they would be received, the frame that is
  taken of them, and its bytes.  Here they have the bytes and the number of bits
  as parameters.  For whatever they are, the same bits come back, up to what the
  decoder's buffer holds.
-/
import IrBridge.Codec.Conversion
import IrBridge.Codec.RoundTrip

set_option autoImplicit false

namespace IrBridge.Codec

open IrBridge.Foundation
open IrBridge.Platform

/-! ## The test -/

/-- What the test prints: the bits, and for every frame that is taken its bits and
the result of their conversion. -/
structure Printed where
  bits : CString
  frames : List (CString × Sampled)
  deriving DecidableEq

/-- The text of `nec` and `unkn0`.  No string is read through the null pointer. -/
def selfTest (dm : DataModel) (P : Protocol) (enc : CString → Except Fault Encoded)
    (test : List Byte) (nbbits : Int) (st : DecodeState) :
    Except Fault (DecodeState × Printed) := do
  match ← bytes2string test nbbits with
  | none => .error .readOutside
  | some bits =>
      let encoded ← enc bits
      let cir := encoded.size / sizeofLircT
      let ir := ((encoded.out.getD []).take cir).map (·.getD 0#32)
      let ir2 := playback ir ++ [space 77000]
      let _ ← storeWords (mallocWords dm ((cir + 1 : Nat) * sizeofLircT)) 0 ir2
      let (st, frames) ← receiveLoop P
        (fun frames st => frames ++ [(st.taken, string2bytes st.taken)]) ir2
        (sizeofLircT * (cir + 1)) (decodeReset st) []
      return (st, ⟨bits, frames⟩)

/-- `nec`. -/
def necTest (dm : DataModel) : List Byte → Int → DecodeState →
    Except Fault (DecodeState × Printed) :=
  selfTest dm nec (necEncode dm)

/-- `unkn0`. -/
def unkn0Test (dm : DataModel) : List Byte → Int → DecodeState →
    Except Fault (DecodeState × Printed) :=
  selfTest dm unkn0 (unkn0Encode dm)

/-! ## What it prints -/

/-- The bits it prints first. -/
def testBits (test : List Byte) (n : Nat) : CString :=
  CString.ofBits ((BitPacking.unpack test).take n)

/-- One frame comes back, with as many of the bits as the buffer holds. -/
def testPrinted (test : List Byte) (n : Nat) : Printed where
  bits := testBits test n
  frames := [(testBits test (min n capacity),
    ⟨some (leadingBytes test (min n capacity)), bytesFor (min n capacity)⟩)]

theorem strlen_testBits {test : List Byte} {n : Nat} (hn : n ≤ 8 * test.length) :
    (testBits test n).strlen = n := by
  rw [testBits, CString.strlen_ofBits, List.length_take, BitPacking.length_unpack,
    Nat.min_eq_left hn]

theorem firstBits_testBits (test : List Byte) (n : Nat) :
    firstBits (testBits test n) = testBits test (min n capacity) := by
  rw [firstBits, testBits, CString.bits_ofBits, List.take_take, testBits, Nat.min_comm]

/-- The conversion gives back the bytes that the bits came from. -/
theorem string2bytes_testBits {test : List Byte} {n : Nat} (hpos : 0 < n)
    (hn : n ≤ 8 * test.length) (hint : (n : Int) < intMax) :
    string2bytes (testBits test n) = ⟨some (leadingBytes test n), bytesFor n⟩ := by
  obtain ⟨s, hs, _, _, hback, _⟩ := bytesConvert_of_lt hpos hn hint
  rw [toInt_of_range (by omega) (by omega), bytes2string_eq_unpack hpos hn hint] at hs
  obtain rfl := Option.some.inj (Except.ok.inj hs)
  exact hback

/-- A block from `malloc` takes the words that are to be received. -/
theorem storeWords_malloc (dm : DataModel) {ws : List LircT}
    (hfits : (4 * ws.length : Int) ≤ intMax) :
    storeWords (mallocWords dm (ws.length * sizeofLircT)) 0 ws = .ok (some (ws.map some)) := by
  have hmax : intMax = 2147483647 := rfl
  have hserved : 2147483647 ≤ ptrdiffMax dm := by cases dm <;> decide
  have hfour : (sizeofLircT : Int) = 4 := rfl
  have hsize : toSize dm (ws.length * sizeofLircT) = ws.length * sizeofLircT := by
    rw [hfour, toSize_of_range dm (by omega) (by omega)]
    unfold sizeofLircT
    omega
  have hblock : mallocWords dm (ws.length * sizeofLircT) =
      some (List.replicate ws.length none) := by
    unfold mallocWords
    rw [hsize, if_neg (by unfold sizeofLircT; omega), Nat.mul_div_cancel _ (by decide)]
  rw [hblock]
  exact storeWords_fill [] ws

section Test

variable {P : Protocol} {W : Waveform} {lead : Nat}

/-- What is received of the words of a string. -/
def heardOf (W : Waveform) (s : CString) : List LircT :=
  playback (W.words s.chars) ++ [space 77000]

theorem length_heardOf (W : Waveform) (s : CString) :
    (heardOf W s).length = 2 * s.strlen + W.head.length + 2 := by
  rw [heardOf, List.length_append, playback, List.length_mapIdx, W.length_words,
    List.length_singleton, CString.strlen]

/-- From an empty buffer one frame is taken of it. -/
theorem run_heardOf {s : CString} (hne : s.strlen ≠ 0)
    (hclass : (heardOf W s).map P.classify = Framing.framed lead (bodySymbols s))
    {st : DecodeState} (hst : Holds st []) :
    (P.wordMachine.run st (heardOf W s)).2 = [firstBits s] := by
  have hair : List.Forall₂ (fun f ws => (ws ++ [space f.2]).map P.classify =
      Framing.framed lead (bodySymbols f.1)) [(s, 77000)] [playback (W.words s.chars)] :=
    .cons hclass .nil
  have hstrings : ∀ f ∈ [(s, 77000)], f.1.strlen ≠ 0 := by
    intro f hf
    rwa [List.mem_singleton.mp hf]
  have hwords : withGaps [(s, 77000)] [playback (W.words s.chars)] = heardOf W s :=
    List.append_nil _
  obtain ⟨final, htakes⟩ := takes_from_empty hst hstrings hair
  rw [receiveFrames_eq_run, hwords] at htakes
  rw [Except.ok.inj htakes, List.map_singleton]

/-- The words that the encoder stored, as they are copied. -/
theorem map_getD_some (ws : List LircT) : (ws.map some).map (·.getD 0#32) = ws := by
  rw [List.map_map]
  exact List.map_id ws

/-- For a protocol whose played back frames are read as framed bodies. -/
theorem selfTest_eq (dm : DataModel) {test : List Byte} {n : Nat} (hpos : 0 < n)
    (hn : n ≤ 8 * test.length)
    (hfits : (4 * (2 * n + W.head.length + 2) : Int) ≤ intMax)
    (hclass : ∀ s, (heardOf W s).map P.classify = Framing.framed lead (bodySymbols s))
    (st : DecodeState) :
    ∃ final, selfTest dm P (encode dm W) test n st = .ok (final, testPrinted test n) := by
  have hmax : intMax = 2147483647 := rfl
  have hlen := strlen_testBits hn
  have hencode := encode_ok dm W (s := testBits test n) (by omega) (by rw [hlen]; omega)
  have hcir : 4 * (2 * (testBits test n).strlen + W.head.length + 1) / sizeofLircT =
      (W.words (testBits test n).chars).length := by
    rw [W.length_words, ← CString.strlen]
    exact Nat.mul_div_cancel_left _ (by decide)
  -- The simulated reception has one word more than the encoder returned.
  have hmore : (W.words (testBits test n).chars).length + 1 =
      (heardOf W (testBits test n)).length := by
    rw [length_heardOf, W.length_words, ← CString.strlen]
  have hstored := storeWords_malloc dm (by rw [length_heardOf, hlen]; omega :
    (4 * (heardOf W (testBits test n)).length : Int) ≤ intMax)
  have hloop := receiveLoop_eq_run (P := P)
    (fun frames frame => frames ++ [(frame, string2bytes frame)])
    (heardOf W (testBits test n)) (decodeReset st) ([] : List (CString × Sampled))
  rw [run_heardOf (by omega) (hclass _) (holds_reset st), List.foldl_cons, List.foldl_nil,
    List.nil_append, firstBits_testBits] at hloop
  have hcap : 0 < capacity := by decide
  rw [string2bytes_testBits (by omega) (by omega) (by omega)] at hloop
  refine ⟨(P.wordMachine.run (decodeReset st) (heardOf W (testBits test n))).1, ?_⟩
  rw [selfTest, bytes2string_eq_unpack hpos hn (by omega), ok_bind]
  dsimp only
  rw [← testBits, hencode, ok_bind]
  dsimp only
  rw [hcir, Option.getD_some, List.take_of_length_le (by rw [List.length_map]), map_getD_some,
    ← heardOf, hmore, hstored, ok_bind]
  rw [sizeofLircT, hloop, ok_bind, pure_eq_ok, testPrinted]

end Test

/-! ## The result -/

/-- Through either protocol, whatever the decoder held before: the test prints the
bits it was given, takes one frame, and prints the bytes that the bits came from,
as far as the decoder's buffer goes. -/
theorem codec_preserves (dm : DataModel) {test : List Byte} {n : Nat} (hpos : 0 < n)
    (hn : n ≤ 8 * test.length) (hint : n ≤ 2 ^ 28 - 3) (st : DecodeState) :
    (∃ final, necTest dm test n st = .ok (final, testPrinted test n)) ∧
      ∃ final, unkn0Test dm test n st = .ok (final, testPrinted test n) := by
  have hmax : intMax = 2147483647 := rfl
  constructor
  · have hhead : necWave.head.length = 2 := rfl
    exact selfTest_eq dm hpos hn (by rw [hhead]; omega)
      (fun s => (necOnAir_playback s).classify (by decide) (by decide)) st
  · have hhead : unkn0Wave.head.length = 0 := rfl
    exact selfTest_eq dm hpos hn (by rw [hhead]; omega)
      (fun s => (unkn0OnAir_playback s).classify (by decide) (by decide)) st

/-- Fifteen bits of the two bytes of the source. -/
theorem codec_preserves_fifteen :
    (testPrinted [0xAD#8, 0x13#8] 15).frames.map Prod.snd = [⟨some [0xAD#8, 0x12#8], 2⟩] ∧
      (∃ final, necTest .lp64 [0xAD#8, 0x13#8] 15 DecodeState.start =
        .ok (final, testPrinted [0xAD#8, 0x13#8] 15)) ∧
      ∃ final, unkn0Test .lp64 [0xAD#8, 0x13#8] 15 DecodeState.start =
        .ok (final, testPrinted [0xAD#8, 0x13#8] 15) :=
  ⟨by decide, codec_preserves .lp64 (by decide) (by decide) (by decide) DecodeState.start⟩

end IrBridge.Codec
