/-
  Codec/Encode.lean --- `nec_encode` and `unkn0_encode`.

  Both encoders count the words in `int`, allocate that many and fill the block
  with one index that only grows.  NEC puts two header words in front; UNKN0 puts
  none.  `encode` is the common text, with the header as a parameter.

  The allocated block is modelled with its uninitialised words (`none`), so that
  "every word is initialised" is a statement about the result.  The result is
  characterised completely: `encode_ok` for the lengths the `int` size can hold,
  `encode_size_le` for why no longer string can be encoded correctly.
-/
import IrBridge.Codec.Decode

set_option autoImplicit false

namespace IrBridge.Codec

open IrBridge.Platform

/-! ## Allocated blocks -/

/-- A block of words from `malloc`; a word is `none` until it is stored to. -/
abbrev Block := List (Option LircT)

/-- `malloc(n)` with an `int` argument.  A request above `PTRDIFF_MAX` yields the
null pointer, `none`; a smaller one is served. -/
def mallocWords (dm : DataModel) (n : Int) : Option Block :=
  if toSize dm n > ptrdiffMax dm then none
  else some (List.replicate (toSize dm n / sizeofLircT) none)

/-- `(*pOut)[n] = v;` -/
def storeWord (pOut : Option Block) (n : Nat) (v : LircT) :
    Except Fault (Option Block) :=
  match pOut with
  | none => .error .nullStore
  | some block =>
      if n < block.length then .ok (some (block.set n (some v)))
      else .error .writeOutside

/-- `(*pOut)[n++] = v;` for each value in turn. -/
def storeWords (pOut : Option Block) (n : Nat) : List LircT →
    Except Fault (Option Block)
  | [] => .ok pOut
  | v :: vs => do
      let pOut' ← storeWord pOut n v
      storeWords pOut' (n + 1) vs

/-- Stores that fill a prepared block leave the values behind, in order. -/
theorem storeWords_fill (pre : Block) (vs : List LircT) :
    storeWords (some (pre ++ List.replicate vs.length none)) pre.length vs =
      .ok (some (pre ++ vs.map some)) := by
  induction vs generalizing pre with
  | nil => rfl
  | cons v vs ih =>
      have hroom : pre.length < (pre ++ List.replicate (v :: vs).length none).length := by
        simp
      have hset : (pre ++ List.replicate (v :: vs).length none).set pre.length (some v) =
          (pre ++ [some v]) ++ List.replicate vs.length none := by
        rw [List.set_append_right _ _ (Nat.le_refl _)]
        simp [List.replicate_succ]
      have htail := ih (pre ++ [some v])
      rw [List.length_append, List.length_singleton] at htail
      rw [storeWords, storeWord, if_pos hroom, hset]
      show storeWords _ (pre.length + 1) vs = _
      rw [htail]
      simp

theorem storeWords_null (n : Nat) {vs : List LircT} (hvs : vs ≠ []) :
    storeWords none n vs = .error .nullStore := by
  cases vs with
  | nil => exact absurd rfl hvs
  | cons v vs => rfl

/-! ## The encoder -/

/-- `*pOut` and the returned size in bytes. -/
structure Encoded where
  out : Option Block
  size : Nat
  deriving DecidableEq

/-- What distinguishes the two protocols on the sending side. -/
structure Waveform where
  /-- header words -/
  head : List LircT
  /-- time to define 0 -/
  t0 : LircT
  /-- time to define 1 -/
  t1 : LircT

/-- The two words of one character. -/
def Waveform.bit (W : Waveform) (c : Char) : List LircT :=
  [W.t0, if c = '1' then W.t1 else W.t0]

/-- All words of a frame: header, bits, last pulse for lirc. -/
def Waveform.words (W : Waveform) (chars : List Char) : List LircT :=
  W.head ++ chars.flatMap W.bit ++ [W.t0]

/-- `int nAlloc = (nbbits * 2 + header + 1) * sizeof(lirc_t);`  The sum is
signed, the product is a `size_t`, and the result is an `int` again. -/
def nAlloc (dm : DataModel) (header : Nat) (nbbits : Int) : Except Fault Int := do
  let pairs ← signed (nbbits * 2)
  let payload ← signed (pairs + header)
  let words ← signed (payload + 1)
  return toInt (toSize dm (toSize dm words * sizeofLircT))

/-- `*_encode(in, &out)`. -/
def encode (dm : DataModel) (W : Waveform) (s : CString) : Except Fault Encoded := do
  let nbbits := toInt s.strlen
  let bytes ← nAlloc dm W.head.length nbbits
  if nbbits ≤ 0 then
    return ⟨none, 0⟩
  let filled ← storeWords (mallocWords dm bytes) 0 (W.words (s.chars.take nbbits.toNat))
  return ⟨filled, toSize dm bytes⟩

theorem Waveform.length_words (W : Waveform) (chars : List Char) :
    (W.words chars).length = 2 * chars.length + W.head.length + 1 := by
  have hbits : (chars.flatMap W.bit).length = 2 * chars.length := by
    induction chars with
    | nil => rfl
    | cons c cs ih =>
        rw [List.flatMap_cons, List.length_append, ih, List.length_cons]
        show 2 + _ = _
        omega
  unfold Waveform.words
  rw [List.length_append, List.length_append, hbits, List.length_singleton]
  omega

/-- The size of `n` words, as long as it fits an `int`. -/
theorem nAlloc_ok (dm : DataModel) {header n : Nat}
    (hfits : (4 * (2 * n + header + 1) : Int) ≤ intMax) :
    nAlloc dm header n = .ok (4 * (2 * n + header + 1) : Nat) := by
  have hmax : intMax = 2147483647 := rfl
  have hfour : (sizeofLircT : Int) = 4 := rfl
  have hcount : toSize dm ((n : Int) * 2 + header + 1) = 2 * n + header + 1 := by
    rw [toSize_of_range dm (by omega) (by omega)]
    omega
  have hbytes : toSize dm (((2 * n + header + 1 : Nat) : Int) * sizeofLircT) =
      4 * (2 * n + header + 1) := by
    rw [hfour, toSize_of_range dm (by omega) (by omega)]
    omega
  rw [nAlloc, signed_of_range (by omega) (by omega), ok_bind,
    signed_of_range (by omega) (by omega), ok_bind,
    signed_of_range (by omega) (by omega), ok_bind, hcount, hbytes,
    toInt_of_range (by omega) (by omega), pure_eq_ok]

/-- The size never exceeds what the words need; it may be less. -/
theorem nAlloc_le {dm : DataModel} {header : Nat} {nbbits bytes : Int} (hnb : 0 ≤ nbbits)
    (h : nAlloc dm header nbbits = .ok bytes) : bytes ≤ 4 * (2 * nbbits + header + 1) := by
  obtain ⟨pairs, hpairs, h⟩ := bind_eq_ok h
  obtain ⟨payload, hpayload, h⟩ := bind_eq_ok h
  obtain ⟨words, hwords, h⟩ := bind_eq_ok h
  obtain rfl := signed_eq hpairs
  obtain rfl := signed_eq hpayload
  obtain rfl := signed_eq hwords
  obtain rfl := Except.ok.inj h
  have hfour : (sizeofLircT : Int) = 4 := rfl
  rw [hfour]
  have hwordsLe := toSize_le_self dm (x := nbbits * 2 + header + 1) (by omega)
  have hbytesLe := toSize_le_self dm
    (x := (toSize dm (nbbits * 2 + header + 1) : Int) * 4) (by omega)
  have hint := toInt_le_self
    (x := (toSize dm ((toSize dm (nbbits * 2 + header + 1) : Int) * 4) : Int)) (by omega)
  omega

theorem nAlloc_is_int {dm : DataModel} {header : Nat} {nbbits bytes : Int}
    (h : nAlloc dm header nbbits = .ok bytes) : ∃ x, bytes = toInt x := by
  obtain ⟨pairs, _, h⟩ := bind_eq_ok h
  obtain ⟨payload, _, h⟩ := bind_eq_ok h
  obtain ⟨words, _, h⟩ := bind_eq_ok h
  rw [pure_eq_ok] at h
  exact ⟨_, (Except.ok.inj h).symm⟩

/-- A negative size becomes a request above `PTRDIFF_MAX`. -/
theorem toSize_neg (dm : DataModel) {x : Int} (hneg : x < 0) (hlo : -intMax - 1 ≤ x) :
    ptrdiffMax dm < toSize dm x := by
  have hmax : intMax = 2147483647 := rfl
  cases dm
  · simp only [toSize, ptrdiffMax, DataModel.sizeBits]
    omega
  · simp only [toSize, ptrdiffMax, DataModel.sizeBits]
    omega

/-- A block `malloc` serves, when its size went through an `int`. -/
theorem toSize_le_of_served (dm : DataModel) (x : Int)
    (hserved : toSize dm (toInt x) ≤ ptrdiffMax dm) :
    (toSize dm (toInt x) : Int) ≤ intMax := by
  have hmax : intMax = 2147483647 := rfl
  have hhi := toInt_le x
  have hlo := le_toInt x
  rcases Int.lt_or_le (toInt x) 0 with hneg | hnonneg
  · have := toSize_neg dm hneg hlo
    omega
  · rw [toSize_of_range dm hnonneg (by omega)]
    omega

/-- As long as the size fits an `int`, the encoder returns a block of exactly
that size in which every word is stored. -/
theorem encode_ok (dm : DataModel) (W : Waveform) {s : CString}
    (hne : s.strlen ≠ 0)
    (hfits : (4 * (2 * s.strlen + W.head.length + 1) : Int) ≤ intMax) :
    encode dm W s =
      .ok ⟨some ((W.words s.chars).map some),
        4 * (2 * s.strlen + W.head.length + 1)⟩ := by
  have hmax : intMax = 2147483647 := rfl
  have hnb : toInt s.strlen = s.strlen := toInt_of_range (by omega) (by omega)
  have hsize : toSize dm ((4 * (2 * s.strlen + W.head.length + 1) : Nat) : Int) =
      4 * (2 * s.strlen + W.head.length + 1) := by
    rw [toSize_of_range dm (by omega) (by omega)]
    omega
  have hblock : mallocWords dm ((4 * (2 * s.strlen + W.head.length + 1) : Nat) : Int) =
      some ([] ++ List.replicate (W.words s.chars).length none) := by
    have hserved : 2147483647 ≤ ptrdiffMax dm := by cases dm <;> decide
    unfold mallocWords
    rw [hsize, if_neg (by omega), W.length_words, List.nil_append, sizeofLircT,
      Nat.mul_div_cancel_left _ (by decide), CString.strlen]
  have htake : s.chars.take (s.strlen : Int).toNat = s.chars :=
    List.take_of_length_le (Nat.le_refl _)
  have hfill := storeWords_fill [] (W.words s.chars)
  rw [List.length_nil] at hfill
  rw [encode, hnb, nAlloc_ok dm hfits, ok_bind, if_neg (by omega), hblock, htake, hfill,
    ok_bind, hsize, pure_eq_ok, List.nil_append]

/-- Whatever the string is, the size the encoder returns fits an `int`: a
string that needs more words than that never gets them. -/
theorem encode_size_le (dm : DataModel) (W : Waveform) {s : CString} {e : Encoded}
    (h : encode dm W s = .ok e) : (e.size : Int) ≤ intMax := by
  have hmax : intMax = 2147483647 := rfl
  unfold encode at h
  obtain ⟨bytes, hbytes, h⟩ := bind_eq_ok h
  split at h
  · cases h
    exact (by decide : ((0 : Nat) : Int) ≤ intMax)
  · obtain ⟨filled, hfilled, h⟩ := bind_eq_ok h
    cases h
    have hwords : W.words (s.chars.take (toInt s.strlen).toNat) ≠ [] := by
      simp [Waveform.words]
    have hserved : toSize dm bytes ≤ ptrdiffMax dm := by
      by_contra hlarge
      have hnull : mallocWords dm bytes = none := if_pos (by omega)
      rw [hnull, storeWords_null 0 hwords] at hfilled
      cases hfilled
    obtain ⟨x, rfl⟩ := nAlloc_is_int hbytes
    exact toSize_le_of_served dm x hserved

/-- Stores that succeed fit the block. -/
theorem storeWords_fits {block : Block} {n : Nat} {vs : List LircT} {r : Option Block}
    (h : storeWords (some block) n vs = .ok r) : vs = [] ∨ n + vs.length ≤ block.length := by
  induction vs generalizing block n with
  | nil => exact Or.inl rfl
  | cons v vs ih =>
      obtain ⟨stored, hstored, hrest⟩ := bind_eq_ok h
      rw [storeWord] at hstored
      split at hstored
      · rename_i hroom
        obtain rfl := Except.ok.inj hstored
        rw [List.length_cons]
        rcases ih hrest with rfl | hfits
        · exact Or.inr hroom
        · rw [List.length_set] at hfits
          exact Or.inr (by omega)
      · cases hstored

/-- Whenever the encoder returns, it is with the null pointer, because the
length is not positive as an `int`, or with the complete frame of as many
characters as that `int` says. -/
theorem encode_cases {dm : DataModel} {W : Waveform} {s : CString} {e : Encoded}
    (h : encode dm W s = .ok e) :
    (toInt s.strlen ≤ 0 ∧ e = ⟨none, 0⟩) ∨
      0 < toInt s.strlen ∧
        e.out = some ((W.words (s.take (toInt s.strlen).toNat).chars).map some) ∧
        e.size = sizeofLircT * (W.words (s.take (toInt s.strlen).toNat).chars).length := by
  have hmax : intMax = 2147483647 := rfl
  have hnb := toInt_le (s.strlen : Int)
  have hself := toInt_le_self (x := s.strlen) (by omega)
  unfold encode at h
  obtain ⟨bytes, hbytes, h⟩ := bind_eq_ok h
  split at h
  · rename_i hzero
    exact Or.inl ⟨hzero, (Except.ok.inj h).symm⟩
  · rename_i hpos
    refine Or.inr ⟨by omega, ?_⟩
    obtain ⟨filled, hfilled, h⟩ := bind_eq_ok h
    obtain rfl := Except.ok.inj h
    -- `n` characters need `words` words; a block that took all stores has just these.
    generalize hn : toInt s.strlen = n at *
    have hlen : (W.words (s.take n.toNat).chars).length = 2 * n.toNat + W.head.length + 1 := by
      rw [Waveform.length_words, CString.take, List.length_take,
        Nat.min_eq_left (by rw [CString.strlen] at hself; omega)]
    have hbound := nAlloc_le (by omega) hbytes
    have hsize : toSize dm bytes ≤ ptrdiffMax dm ∧
        (W.words (s.take n.toNat).chars).length ≤ toSize dm bytes / sizeofLircT := by
      unfold mallocWords at hfilled
      split at hfilled
      · rw [storeWords_null 0 (by simp [Waveform.words])] at hfilled
        cases hfilled
      · rename_i hserved
        rcases storeWords_fits hfilled with hnil | hfits
        · simp [Waveform.words] at hnil
        · rw [Nat.zero_add, List.length_replicate] at hfits
          exact ⟨by omega, hfits⟩
    have hfour : sizeofLircT = 4 := rfl
    have hexact : toSize dm bytes = sizeofLircT *
        (W.words (s.take n.toNat).chars).length := by
      obtain ⟨x, rfl⟩ := nAlloc_is_int hbytes
      rw [hfour] at hsize ⊢
      rcases Int.lt_or_le (toInt x) 0 with hneg | hnonneg
      · have := toSize_neg dm hneg (le_toInt x)
        omega
      · have := toSize_le_self dm hnonneg
        omega
    have hfill := storeWords_fill [] (W.words (s.take n.toNat).chars)
    rw [List.nil_append, List.length_nil, List.nil_append] at hfill
    rw [mallocWords, if_neg (by omega), hexact, hfour,
      Nat.mul_div_cancel_left _ (by omega)] at hfilled
    exact ⟨Except.ok.inj (hfilled.symm.trans hfill), hexact⟩

/-! ## The two protocols -/

/-- `NEC_THEAD_PULSE`. -/
def necTheadPulse : LircT := 9000#32
/-- `NEC_THEAD_SPACE`: `NEC_THEAD_PULSE/2`. -/
def necTheadSpace : LircT := necTheadPulse / 2#32
/-- `NEC_T0`. -/
def necT0 : LircT := 560#32
/-- `NEC_T1`. -/
def necT1 : LircT := 1680#32
/-- `UNKN0_T0`. -/
def unkn0T0 : LircT := 500#32
/-- `UNKN0_T1`. -/
def unkn0T1 : LircT := 1000#32

/-- NEC frames start with a header pulse and a header space. -/
def necWave : Waveform := ⟨[necTheadPulse, necTheadSpace], necT0, necT1⟩

/-- UNKN0 frames have no header. -/
def unkn0Wave : Waveform := ⟨[], unkn0T0, unkn0T1⟩

/-- `nec_encode`. -/
def necEncode (dm : DataModel) (s : CString) : Except Fault Encoded := encode dm necWave s

/-- `unkn0_encode`. -/
def unkn0Encode (dm : DataModel) (s : CString) : Except Fault Encoded :=
  encode dm unkn0Wave s

end IrBridge.Codec
