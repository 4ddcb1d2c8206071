/-
  Platform/Types.lean --- the C types the sources are written in.

  `sample_t` and `lirc_t` are fixed-width and become `BitVec 8` and `BitVec 32`.
  `int` is 32 bits on every target of the Makefiles; `size_t` is 32 bits on the
  Raspberry Pi and on the Android ABIs and 64 bits on a desktop client, so it is
  read through a `DataModel`.

  Behaviour the language leaves undefined is a `Fault`: a modelled function
  stops there, and a statement that it returns `.ok` says that the fault never
  happens.  Signed arithmetic that cannot leave the range of `int` is plain
  arithmetic.
-/
import Mathlib.Algebra.Group.Nat.Defs
import Mathlib.Data.List.TakeWhile

set_option autoImplicit false

namespace IrBridge.Platform

/-- `char` seen as raw memory, and `sample_t` (`__u8`). -/
abbrev Byte := BitVec 8

/-- `lirc_t` (`__u32`): a duration in microseconds with a mode byte above it. -/
abbrev LircT := BitVec 32

/-- `sizeof(lirc_t)`. -/
def sizeofLircT : Nat := 4

/-- `BUF_SIZE`, of the bridge and of the Linux client. -/
def bufSize : Nat := 1024

/-! ## Faults -/

/-- What the C text leaves undefined, or what it must not do. -/
inductive Fault where
  /-- a word is read that does not lie wholly inside the received bytes -/
  | readOutside
  /-- a store past the end of an allocated block -/
  | writeOutside
  /-- a store through a null pointer -/
  | nullStore
  /-- signed overflow -/
  | signedOverflow
  /-- an unsigned remaining length is decreased below zero -/
  | lengthWraps
  /-- a variable is used before it is set -/
  | indeterminate
  deriving DecidableEq, Repr

section Returning

variable {ε α β : Type}

@[simp] theorem ok_bind (a : α) (f : α → Except ε β) : (Except.ok a >>= f) = f a := rfl

@[simp] theorem error_bind (e : ε) (f : α → Except ε β) :
    (Except.error e >>= f) = .error e := rfl

@[simp] theorem pure_eq_ok (a : α) : (pure a : Except ε α) = .ok a := rfl

/-- A computation that returns got through its first step. -/
theorem bind_eq_ok {x : Except ε α} {f : α → Except ε β} {b : β}
    (h : (x >>= f) = .ok b) : ∃ a, x = .ok a ∧ f a = .ok b := by
  cases x with
  | error e => cases h
  | ok a => exact ⟨a, rfl, h⟩

/-- A loop of fallible steps, seen through `view`, is the loop of the steps that
are seen. -/
theorem foldlM_view {σ τ : Type} {step : σ → α → Except ε σ} {step' : τ → α → Except ε τ}
    (view : σ → τ) {as : List α}
    (hstep : ∀ s, ∀ a ∈ as, (step s a).map view = step' (view s) a) (s : σ) :
    (as.foldlM step s).map view = as.foldlM step' (view s) := by
  induction as generalizing s with
  | nil => rfl
  | cons a as ih =>
      have hturn := hstep s a List.mem_cons_self
      rw [List.foldlM_cons, List.foldlM_cons, ← hturn]
      cases step s a with
      | error e => rfl
      | ok s' => exact ih (fun s b hb => hstep s b (List.mem_cons_of_mem a hb)) s'

end Returning

/-! ## Integers -/

/-- The sizes that differ between the targets. -/
inductive DataModel where
  /-- 32-bit `size_t` -/
  | ilp32
  /-- 64-bit `size_t` -/
  | lp64
  deriving DecidableEq, Repr

/-- Bits of `size_t`. -/
def DataModel.sizeBits : DataModel → Nat
  | .ilp32 => 32
  | .lp64 => 64

/-- `INT_MAX`. -/
def intMax : Int := 2147483647

/-- Conversion to `int`, modulo 2^32. -/
@[irreducible] def toInt (x : Int) : Int := Int.bmod x 4294967296

/-- Conversion to `size_t`. -/
def toSize (dm : DataModel) (x : Int) : Nat := (x % (2 ^ dm.sizeBits : Nat)).toNat

/-- The largest object `malloc` hands out (`PTRDIFF_MAX`). -/
def ptrdiffMax (dm : DataModel) : Nat := 2 ^ (dm.sizeBits - 1) - 1

/-- The result of a signed `int` operation, which must be in range. -/
def signed (x : Int) : Except Fault Int :=
  if -intMax - 1 ≤ x ∧ x ≤ intMax then .ok x else .error .signedOverflow

theorem toInt_of_range {x : Int} (hlo : 0 ≤ x) (hhi : x ≤ intMax) : toInt x = x := by
  unfold toInt intMax at *
  rw [Int.bmod_eq_of_le] <;> omega

/-- An `int` stays as it is. -/
theorem toInt_of_int {x : Int} (hlo : -intMax - 1 ≤ x) (hhi : x ≤ intMax) : toInt x = x := by
  unfold toInt intMax at *
  rw [Int.bmod_eq_of_le] <;> omega

theorem toInt_le (x : Int) : toInt x ≤ intMax := by
  have := Int.bmod_lt (x := x) (m := 4294967296) (by omega)
  unfold toInt intMax
  omega

theorem le_toInt (x : Int) : -intMax - 1 ≤ toInt x := by
  have := Int.le_bmod (x := x) (m := 4294967296) (by omega)
  unfold toInt intMax
  omega

theorem toInt_le_self {x : Int} (hx : 0 ≤ x) : toInt x ≤ x := by
  have hmod := Int.emod_lt_of_pos x (by omega : (0 : Int) < 4294967296)
  unfold toInt
  rw [Int.bmod_def]
  split <;> omega

theorem toSize_le_self (dm : DataModel) {x : Int} (hx : 0 ≤ x) : (toSize dm x : Int) ≤ x := by
  cases dm
  · simp only [toSize, DataModel.sizeBits]
    omega
  · simp only [toSize, DataModel.sizeBits]
    omega

theorem toSize_of_range (dm : DataModel) {x : Int} (hlo : 0 ≤ x)
    (hhi : x < 4294967296) : toSize dm x = x.toNat := by
  unfold toSize
  congr 1
  cases dm
  · exact Int.emod_eq_of_lt hlo (by simpa [DataModel.sizeBits] using hhi)
  · refine Int.emod_eq_of_lt hlo (Int.lt_trans hhi ?_)
    simp [DataModel.sizeBits]

theorem signed_of_range {x : Int} (hlo : 0 ≤ x) (hhi : x ≤ intMax) :
    signed x = .ok x := by
  unfold signed
  rw [if_pos ⟨by unfold intMax; omega, hhi⟩]

theorem signed_eq {x y : Int} (h : signed x = .ok y) : y = x := by
  unfold signed at h
  split at h
  · exact (Except.ok.inj h).symm
  · cases h

/-- A value of `int`. -/
def FitsInt (x : Int) : Prop := -intMax - 1 ≤ x ∧ x ≤ intMax

instance (x : Int) : Decidable (FitsInt x) := inferInstanceAs (Decidable (_ ∧ _))

theorem signed_of_fits {x : Int} (h : FitsInt x) : signed x = .ok x := if_pos h

theorem signed_of_not_fits {x : Int} (h : ¬ FitsInt x) : signed x = .error .signedOverflow :=
  if_neg h

theorem fitsInt_toInt (x : Int) : FitsInt (toInt x) := ⟨le_toInt x, toInt_le x⟩

/-! ## Strings -/

/-- A C string: the characters before the terminating NUL. -/
structure CString where
  chars : List Char
  noNul : ∀ c ∈ chars, c ≠ '\x00'
  deriving DecidableEq, Repr

namespace CString

/-- `strlen`. -/
def strlen (s : CString) : Nat := s.chars.length

/-- The string a `char` array holds: everything before its first NUL. -/
def ofBuffer (buff : List Char) : CString where
  chars := buff.takeWhile (· ≠ '\x00')
  noNul := fun c hc => by simpa using List.mem_takeWhile_imp hc

/-- Nothing is lost of characters without a NUL. -/
theorem ofBuffer_eq {chars : List Char} (hnul : ∀ c ∈ chars, c ≠ '\x00') :
    (ofBuffer chars).chars = chars :=
  List.takeWhile_eq_self_iff.mpr fun c hc => decide_eq_true (hnul c hc)

/-- The array a string takes: its characters and the NUL. -/
def cells (s : CString) : List Char := s.chars ++ ['\x00']

theorem length_cells (s : CString) : s.cells.length = s.strlen + 1 := by
  rw [cells, List.length_append, List.length_singleton, strlen]

theorem ext {s t : CString} (h : s.chars = t.chars) : s = t := by
  cases s
  cases t
  simpa using h

/-- The character a decoded bit is written as. -/
def bitChar (b : Bool) : Char := if b then '1' else '0'

/-- The first `n` characters. -/
def take (s : CString) (n : Nat) : CString where
  chars := s.chars.take n
  noNul := fun c hc => s.noNul c (List.mem_of_mem_take hc)

theorem bitChar_ne_nul (b : Bool) : bitChar b ≠ '\x00' := by
  cases b <;> decide

/-- The string of a list of bits. -/
def ofBits (bits : List Bool) : CString where
  chars := bits.map bitChar
  noNul := fun c hc => by
    obtain ⟨b, _, rfl⟩ := List.mem_map.mp hc
    exact bitChar_ne_nul b

/-- The bits a string is read as: every character other than `'1'` is a zero. -/
def bits (s : CString) : List Bool := s.chars.map (· == '1')

@[simp] theorem length_bits (s : CString) : s.bits.length = s.strlen := by
  simp [bits, strlen]

@[simp] theorem strlen_ofBits (bits : List Bool) :
    (ofBits bits).strlen = bits.length := by
  simp [ofBits, strlen]

@[simp] theorem bits_ofBits (bs : List Bool) : (ofBits bs).bits = bs := by
  have hbit : ((· == '1') ∘ bitChar : Bool → Bool) = id := by
    funext b
    cases b <;> decide
  simp [bits, ofBits, List.map_map, hbit]

/-- A NUL-padded array of bit characters holds exactly those bits. -/
theorem ofBuffer_bits_padded (bs : List Bool) (n : Nat) :
    ofBuffer (bs.map bitChar ++ List.replicate n '\x00') = ofBits bs := by
  apply ext
  show (bs.map bitChar ++ List.replicate n '\x00').takeWhile _ = bs.map bitChar
  have hbits : ∀ c ∈ bs.map bitChar, decide (c ≠ '\x00') = true := fun c hc =>
    decide_eq_true ((ofBits bs).noNul c hc)
  rw [List.takeWhile_append_of_pos hbits]
  cases n <;> simp

end CString

/-! ## Reads -/

/-- The result of `read` or `recv` into a buffer of `BUF_SIZE` bytes. -/
inductive ReadResult where
  | failed
  | got (bytes : List Byte) (fits : bytes.length ≤ bufSize)
  deriving DecidableEq

/-- The returned `int`. -/
def ReadResult.result : ReadResult → Int
  | .failed => -1
  | .got bytes _ => bytes.length

/-- The bytes put into the buffer. -/
def ReadResult.bytes : ReadResult → List Byte
  | .failed => []
  | .got bytes _ => bytes

theorem ReadResult.length_bytes_le (r : ReadResult) : r.bytes.length ≤ bufSize := by
  cases r with
  | failed => exact Nat.zero_le _
  | got bytes fits => exact fits

theorem ReadResult.result_pos_iff (r : ReadResult) : 0 < r.result ↔ r.bytes ≠ [] := by
  cases r with
  | failed => simp [result, bytes]
  | got bytes fits => simp [result, ReadResult.bytes, List.length_pos_iff]

/-! ## Words in memory -/

/-- The little-endian bytes of a word. -/
def bytesOfWord (w : LircT) : List Byte :=
  [w.extractLsb' 0 8, w.extractLsb' 8 8, w.extractLsb' 16 8, w.extractLsb' 24 8]

/-- A block of words seen as `char` memory. -/
def bytesOf (ws : List LircT) : List Byte := ws.flatMap bytesOfWord

/-- The whole words a byte range holds.  A rest of one to three bytes is not a
word that lies inside the range. -/
def wordsOf : List Byte → List LircT
  | b0 :: b1 :: b2 :: b3 :: rest => (b3 ++ b2 ++ b1 ++ b0 : BitVec 32) :: wordsOf rest
  | _ => []

theorem wordsOf_bytesOfWord_append (w : LircT) (bs : List Byte) :
    wordsOf (bytesOfWord w ++ bs) = w :: wordsOf bs := by
  have hw : (w.extractLsb' 24 8 ++ w.extractLsb' 16 8 ++ w.extractLsb' 8 8 ++
      w.extractLsb' 0 8 : BitVec 32) = w := by
    ext i hi
    simp only [BitVec.getElem_append, BitVec.getElem_extractLsb']
    split
    · rw [Nat.zero_add]
      exact BitVec.getLsbD_eq_getElem hi
    · split
      · rw [show 8 + (i - 8) = i by omega]
        exact BitVec.getLsbD_eq_getElem hi
      · split
        · rw [show 16 + (i - 8 - 8) = i by omega]
          exact BitVec.getLsbD_eq_getElem hi
        · rw [show 24 + (i - 8 - 8 - 8) = i by omega]
          exact BitVec.getLsbD_eq_getElem hi
  simp [bytesOfWord, wordsOf, hw]

@[simp] theorem wordsOf_bytesOf (ws : List LircT) : wordsOf (bytesOf ws) = ws := by
  induction ws with
  | nil => rfl
  | cons w ws ih =>
      rw [bytesOf, List.flatMap_cons, wordsOf_bytesOfWord_append]
      exact congrArg _ ih

@[simp] theorem length_bytesOf (ws : List LircT) :
    (bytesOf ws).length = 4 * ws.length := by
  induction ws with
  | nil => rfl
  | cons w ws ih =>
      rw [bytesOf, List.flatMap_cons, List.length_append, List.length_cons]
      change 4 + (bytesOf ws).length = _
      omega

theorem length_wordsOf : ∀ bs : List Byte, (wordsOf bs).length = bs.length / 4
  | b0 :: b1 :: b2 :: b3 :: rest => by
      simp only [wordsOf, List.length_cons, length_wordsOf rest]
      omega
  | [] => rfl
  | [_] => by simp [wordsOf]
  | [_, _] => by simp [wordsOf]
  | [_, _, _] => by simp [wordsOf]

end IrBridge.Platform
