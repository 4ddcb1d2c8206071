/-
  Client/JavaBuffer.lean --- the Java decoding path against the native one.

  A Java caller puts its words into an `IRBuffer` byte by byte, hands the object
  to the native decoder again and again, and takes the decoded string after each
  call that returns 1.  The words cross three representations on the way: signed
  Java bytes, native memory, and a shorter array after every call.

  `put_spec` and `get_spec` say that the bytes of a word survive the signed
  representation; `nativeDecode_spec` follows one native call; the main result
  puts them together over the whole loop.
-/
import IrBridge.Client.Android
import Mathlib.Data.List.Forall2

set_option autoImplicit false

namespace IrBridge.Client

open IrBridge.Foundation
open IrBridge.Codec
open IrBridge.Platform

/-! ## IRBuffer -/

/-- What a Java array access may throw. -/
inductive JavaException where
  | arrayIndexOutOfBounds
  deriving DecidableEq, Repr

/-- `b[i] = x;` -/
def storeByte (b : List Byte) (i : Int) (x : Byte) : Except JavaException (List Byte) :=
  if 0 ≤ i ∧ i < b.length then .ok (b.set i.toNat x) else .error .arrayIndexOutOfBounds

/-- `b[i]` -/
def loadByte (b : List Byte) (i : Int) : Except JavaException Byte :=
  if 0 ≤ i ∧ i < b.length then .ok (b.getD i.toNat 0#8) else .error .arrayIndexOutOfBounds

/-- `new IRBuffer(count)`, where an `int` holds `count*4`. -/
def IRBuffer.ofCount (count : Nat) : IRBuffer where
  buffer := List.replicate (count * 4) 0#8
  len := 0

/-- `put(pos, v)`: the buffer object after the call, and the position returned. -/
def IRBuffer.put (ir : IRBuffer) (pos : Int) (v : BitVec 32) :
    Except JavaException (IRBuffer × Int) := do
  let buffer ← (List.range 4).foldlM (fun buffer (t : Nat) =>
    storeByte buffer (toInt (4 * pos + t)) ((v.sshiftRight (t * 8)).setWidth 8)) ir.buffer
  return (⟨buffer, toInt (ir.len + 4)⟩, toInt (pos + 1))

/-- The value of a byte that Java sees signed:
`tmp = (int)x; if (tmp<0) tmp = (x & 0x7F) | 0x80;` -/
def unsignedValue (x : Byte) : BitVec 32 :=
  let tmp := x.signExtend 32
  if tmp.slt 0#32 then (x.signExtend 32 &&& 0x7F#32) ||| 0x80#32 else tmp

/-- `FourBytesToInt(b, pos)`. -/
def fourBytesToInt (b : List Byte) (pos : Int) : Except JavaException (BitVec 32) :=
  (List.range 4).foldlM (fun v (t : Nat) => do
    let x ← loadByte b (toInt (4 * pos + t))
    return v ||| (unsignedValue x <<< (t * 8))) 0#32

/-- `get(pos)`. -/
def IRBuffer.get (ir : IRBuffer) (pos : Int) : Except JavaException (BitVec 32) :=
  fourBytesToInt ir.buffer pos

/-- `p = 0; p = in.put(p, v); ...` for the words of a list. -/
def IRBuffer.putAll (ir : IRBuffer) (ws : List (BitVec 32)) :
    Except JavaException (IRBuffer × Int) :=
  ws.foldlM (fun now v => now.1.put now.2 v) (ir, 0)

/-! ## Bytes of a word -/

theorem unsignedValue_eq (x : Byte) : unsignedValue x = x.setWidth 32 := by
  have hall : ∀ x : Byte, unsignedValue x = x.setWidth 32 := by decide +kernel
  exact hall x

/-- `(byte)(v >> (t*8))` is byte `t` of the word, whatever its sign. -/
theorem setWidth_sshiftRight (v : BitVec 32) {t : Nat} (ht : t < 4) :
    (v.sshiftRight (t * 8)).setWidth 8 = v.extractLsb' (t * 8) 8 := by
  apply BitVec.eq_of_getLsbD_eq
  intro i hi
  rw [BitVec.getLsbD_setWidth, BitVec.getLsbD_sshiftRight, BitVec.getLsbD_extractLsb']
  simp [hi, show ¬ 32 ≤ i by omega, show t * 8 + i < 32 by omega]

/-- The four bytes, each shifted to its place, make the word. -/
theorem or_bytesOfWord (v : BitVec 32) :
    (v.extractLsb' 0 8).setWidth 32 ||| (v.extractLsb' 8 8).setWidth 32 <<< 8 |||
      (v.extractLsb' 16 8).setWidth 32 <<< 16 |||
      (v.extractLsb' 24 8).setWidth 32 <<< 24 = v := by
  apply BitVec.eq_of_getLsbD_eq
  intro i hi
  simp only [BitVec.getLsbD_or, BitVec.getLsbD_shiftLeft, BitVec.getLsbD_setWidth,
    BitVec.getLsbD_extractLsb']
  rcases Nat.lt_or_ge i 8 with h8 | h8
  · simp [hi, h8, show i < 16 by omega, show i < 24 by omega]
  · rcases Nat.lt_or_ge i 16 with h16 | h16
    · have hpos : 8 + (i - 8) = i := by omega
      simp [hi, h16, show ¬ i < 8 by omega, show i < 24 by omega, show i - 8 < 8 by omega,
        show i - 8 < 32 by omega, hpos]
    · rcases Nat.lt_or_ge i 24 with h24 | h24
      · have hpos : 16 + (i - 16) = i := by omega
        simp [hi, h24, show ¬ i < 8 by omega, show ¬ i < 16 by omega,
          show ¬ i - 8 < 8 by omega, show i - 16 < 8 by omega, show i - 16 < 32 by omega,
          hpos]
      · have hpos : 24 + (i - 24) = i := by omega
        simp [hi, show ¬ i < 8 by omega, show ¬ i < 16 by omega, show ¬ i < 24 by omega,
          show ¬ i - 8 < 8 by omega, show ¬ i - 16 < 8 by omega, show i - 24 < 8 by omega,
          show i - 24 < 32 by omega, hpos]

/-- The byte between two others is in the buffer. -/
theorem index_middle (pre : List Byte) (x : Byte) (post : List Byte) :
    0 ≤ (pre.length : Int) ∧ (pre.length : Int) < ((pre ++ x :: post).length : Int) := by
  rw [List.length_append, List.length_cons]
  omega

theorem storeByte_at (pre : List Byte) (x : Byte) (post : List Byte) (y : Byte) {i : Int}
    (hi : i = pre.length) : storeByte (pre ++ x :: post) i y = .ok (pre ++ y :: post) := by
  subst hi
  rw [storeByte, if_pos (index_middle pre x post), Int.toNat_natCast,
    List.set_append_right _ _ (Nat.le_refl _), Nat.sub_self, List.set_cons_zero]

theorem loadByte_at (pre : List Byte) (x : Byte) (post : List Byte) {i : Int}
    (hi : i = pre.length) : loadByte (pre ++ x :: post) i = .ok x := by
  subst hi
  rw [loadByte, if_pos (index_middle pre x post), Int.toNat_natCast,
    List.getD_append_right _ _ _ _ (Nat.le_refl _), Nat.sub_self, List.getD_cons_zero]

/-- The index of byte `t` of word `n`, when an `int` holds it. -/
theorem byteIndex_eq {n t : Nat} (ht : t < 4) (hint : (4 * (n + 1) : Int) ≤ intMax) :
    toInt (4 * (n : Int) + (t : Int)) = 4 * n + t :=
  toInt_of_range (by omega) (by omega)

/-- A put behind `4 * n` bytes overwrites the next four with the word's. -/
theorem put_spec {pre post : List Byte} {x0 x1 x2 x3 : Byte} {n : Nat}
    (hpre : pre.length = 4 * n) (hint : (4 * (n + 1) : Int) ≤ intMax) (len : Int)
    (v : BitVec 32) :
    IRBuffer.put ⟨pre ++ x0 :: x1 :: x2 :: x3 :: post, len⟩ n v =
      .ok (⟨pre ++ bytesOfWord v ++ post, toInt (len + 4)⟩, toInt (n + 1)) := by
  -- The array after 0, 1, 2 and 3 stores.
  have h0 := storeByte_at pre x0 (x1 :: x2 :: x3 :: post)
    (v.extractLsb' (0 * 8) 8) (i := 4 * n + (0 : Nat)) (by omega)
  have h1 := storeByte_at (pre ++ [v.extractLsb' (0 * 8) 8]) x1 (x2 :: x3 :: post)
    (v.extractLsb' (1 * 8) 8) (i := 4 * n + (1 : Nat)) (by simp; omega)
  have h2 := storeByte_at (pre ++ [v.extractLsb' (0 * 8) 8, v.extractLsb' (1 * 8) 8]) x2
    (x3 :: post) (v.extractLsb' (2 * 8) 8) (i := 4 * n + (2 : Nat)) (by simp; omega)
  have h3 := storeByte_at (pre ++ [v.extractLsb' (0 * 8) 8, v.extractLsb' (1 * 8) 8,
    v.extractLsb' (2 * 8) 8]) x3 post (v.extractLsb' (3 * 8) 8) (i := 4 * n + (3 : Nat))
    (by simp; omega)
  simp only [List.append_assoc, List.cons_append, List.nil_append] at h1 h2 h3
  have hrange : List.range 4 = [0, 1, 2, 3] := rfl
  have hstored : (List.range 4).foldlM (fun buffer (t : Nat) =>
      storeByte buffer (toInt (4 * (n : Int) + (t : Int)))
        ((v.sshiftRight (t * 8)).setWidth 8)) (pre ++ x0 :: x1 :: x2 :: x3 :: post) =
      .ok (pre ++ bytesOfWord v ++ post) := by
    simp only [hrange, List.foldlM_cons, List.foldlM_nil]
    rw [byteIndex_eq (by omega) hint, setWidth_sshiftRight v (by omega), h0, ok_bind,
      byteIndex_eq (by omega) hint, setWidth_sshiftRight v (by omega), h1, ok_bind,
      byteIndex_eq (by omega) hint, setWidth_sshiftRight v (by omega), h2, ok_bind,
      byteIndex_eq (by omega) hint, setWidth_sshiftRight v (by omega), h3, ok_bind,
      pure_eq_ok, List.append_assoc]
    rfl
  rw [IRBuffer.put, hstored, ok_bind, pure_eq_ok]

/-- A get behind `4 * n` bytes reads the word whose bytes come next. -/
theorem get_spec {pre : List Byte} {n : Nat} (hpre : pre.length = 4 * n)
    (hint : (4 * (n + 1) : Int) ≤ intMax) (v : BitVec 32) (post : List Byte) :
    fourBytesToInt (pre ++ bytesOfWord v ++ post) n = .ok v := by
  have hword : pre ++ bytesOfWord v ++ post = pre ++ v.extractLsb' 0 8 ::
      v.extractLsb' 8 8 :: v.extractLsb' 16 8 :: v.extractLsb' 24 8 :: post := by
    rw [List.append_assoc]
    rfl
  have h0 := loadByte_at pre (v.extractLsb' 0 8) (v.extractLsb' 8 8 ::
    v.extractLsb' 16 8 :: v.extractLsb' 24 8 :: post) (i := 4 * n + (0 : Nat)) (by omega)
  have h1 := loadByte_at (pre ++ [v.extractLsb' 0 8]) (v.extractLsb' 8 8)
    (v.extractLsb' 16 8 :: v.extractLsb' 24 8 :: post) (i := 4 * n + (1 : Nat))
    (by simp; omega)
  have h2 := loadByte_at (pre ++ [v.extractLsb' 0 8, v.extractLsb' 8 8])
    (v.extractLsb' 16 8) (v.extractLsb' 24 8 :: post) (i := 4 * n + (2 : Nat))
    (by simp; omega)
  have h3 := loadByte_at (pre ++ [v.extractLsb' 0 8, v.extractLsb' 8 8,
    v.extractLsb' 16 8]) (v.extractLsb' 24 8) post (i := 4 * n + (3 : Nat))
    (by simp; omega)
  simp only [List.append_assoc, List.cons_append, List.nil_append] at h1 h2 h3
  have hrange : List.range 4 = [0, 1, 2, 3] := rfl
  rw [fourBytesToInt, hword]
  simp only [hrange, List.foldlM_cons, List.foldlM_nil]
  rw [byteIndex_eq (by omega) hint, h0, ok_bind, pure_eq_ok, ok_bind,
    byteIndex_eq (by omega) hint, h1, ok_bind, pure_eq_ok, ok_bind,
    byteIndex_eq (by omega) hint, h2, ok_bind, pure_eq_ok, ok_bind,
    byteIndex_eq (by omega) hint, h3, ok_bind, pure_eq_ok, ok_bind, pure_eq_ok,
    unsignedValue_eq, unsignedValue_eq, unsignedValue_eq, unsignedValue_eq]
  have hor := or_bytesOfWord v
  simpa using hor

/-! ## Words in a buffer -/

theorem bytesOf_append (ws ws' : List LircT) :
    bytesOf (ws ++ ws') = bytesOf ws ++ bytesOf ws' :=
  List.flatMap_append

/-- The buffer object holds exactly the words: its array has no other bytes, and
its length field says how many there are. -/
structure HoldsWords (ir : IRBuffer) (ws : List LircT) : Prop where
  buffer_eq : ir.buffer = bytesOf ws
  size_eq : (ir.buffer.length : Int) = ir.len
  len_eq : ir.len = 4 * ws.length
  get_eq : ∀ (i : Nat) (hi : i < ws.length), ir.get i = .ok ws[i]

/-- A put behind the words that are there adds one. -/
theorem putAll_from (ws done : List LircT) (tail : List Byte)
    (htail : 4 * ws.length ≤ tail.length)
    (hint : (4 * (done.length + ws.length) : Int) ≤ intMax) :
    ws.foldlM (fun (now : IRBuffer × Int) v => now.1.put now.2 v)
        (⟨bytesOf done ++ tail, 4 * done.length⟩, (done.length : Int)) =
      .ok (⟨bytesOf (done ++ ws) ++ tail.drop (4 * ws.length),
        4 * (done.length + ws.length)⟩, (done.length + ws.length : Int)) := by
  induction ws generalizing done tail with
  | nil => simp
  | cons v ws ih =>
      rw [List.length_cons] at htail hint ⊢
      obtain ⟨x0, x1, x2, x3, post, rfl⟩ : ∃ x0 x1 x2 x3 post,
          tail = x0 :: x1 :: x2 :: x3 :: post := by
        rcases tail with _ | ⟨x0, _ | ⟨x1, _ | ⟨x2, _ | ⟨x3, post⟩⟩⟩⟩
        · simp only [List.length_nil] at htail
          omega
        · simp only [List.length_cons, List.length_nil] at htail
          omega
        · simp only [List.length_cons, List.length_nil] at htail
          omega
        · simp only [List.length_cons, List.length_nil] at htail
          omega
        · exact ⟨x0, x1, x2, x3, post, rfl⟩
      simp only [List.length_cons] at htail
      have hlen : toInt (4 * (done.length : Int) + 4) = 4 * ((done ++ [v]).length : Int) := by
        rw [toInt_of_range (by omega) (by omega), List.length_append, List.length_singleton]
        omega
      have hpos : toInt ((done.length : Int) + 1) = ((done ++ [v]).length : Int) := by
        rw [toInt_of_range (by omega) (by omega), List.length_append, List.length_singleton]
        omega
      have hbytes : bytesOf (done ++ [v]) = bytesOf done ++ bytesOfWord v := by
        rw [bytesOf_append, bytesOf, bytesOf, List.flatMap_singleton]
      have hnext := ih (done ++ [v]) post (by omega)
        (by rw [List.length_append, List.length_singleton]; omega)
      rw [List.foldlM_cons, put_spec (length_bytesOf done) (by omega), ok_bind, hlen, hpos,
        ← hbytes, hnext, List.append_assoc, List.length_append, List.length_singleton]
      have hcount : ((done.length + 1 : Nat) : Int) + (ws.length : Int) =
          done.length + ((ws.length + 1 : Nat) : Int) := by omega
      rw [hcount]
      rfl

theorem putAll_spec {ir : IRBuffer} (hempty : ir.len = 0) (ws : List LircT)
    (hroom : 4 * ws.length ≤ ir.buffer.length)
    (hjava : (ir.buffer.length : Int) ≤ intMax) :
    ir.putAll ws = .ok (⟨bytesOf ws ++ ir.buffer.drop (4 * ws.length), 4 * ws.length⟩,
      (ws.length : Int)) := by
  have hall := putAll_from ws [] ir.buffer hroom (by simp; omega)
  obtain ⟨buffer, len⟩ := ir
  obtain rfl : len = 0 := hempty
  simpa [IRBuffer.putAll, bytesOf] using hall

/-- Every word is where it was put. -/
theorem get_bytesOf (ws : List LircT) (tail : List Byte) (len : Int)
    (hint : (4 * ws.length : Int) ≤ intMax) (i : Nat) (hi : i < ws.length) :
    IRBuffer.get ⟨bytesOf ws ++ tail, len⟩ i = .ok ws[i] := by
  have hsplit : bytesOf ws ++ tail = bytesOf (ws.take i) ++ bytesOfWord ws[i] ++
      (bytesOf (ws.drop (i + 1)) ++ tail) := by
    have hws : ws = ws.take i ++ ws[i] :: ws.drop (i + 1) := by
      rw [List.cons_getElem_drop_succ, List.take_append_drop]
    conv_lhs => rw [hws]
    rw [bytesOf_append, List.append_assoc, List.append_assoc]
    rfl
  rw [IRBuffer.get, hsplit]
  refine get_spec ?_ (by omega) _ _
  rw [length_bytesOf, List.length_take, Nat.min_eq_left (by omega)]

theorem holdsWords_bytesOf (ws : List LircT) (hint : (4 * ws.length : Int) ≤ intMax) :
    HoldsWords ⟨bytesOf ws, 4 * ws.length⟩ ws where
  buffer_eq := rfl
  size_eq := by
    show ((bytesOf ws).length : Int) = 4 * ws.length
    rw [length_bytesOf]
    omega
  len_eq := rfl
  get_eq := by
    intro i hi
    have hget := get_bytesOf ws [] (4 * ws.length) hint i hi
    rwa [List.append_nil] at hget

/-! ## The two loops -/

/-- What the Java loop recorded: the frames, and the buffer object after each
native call. -/
structure JavaLog where
  frames : List CString
  afterCalls : List IRBuffer

/-- The turn of the loop that ends with the result `r` of a native call. -/
def JavaLog.turn (log : JavaLog) (r : NativeDecoded) : JavaLog where
  frames := if r.ret = 1 then log.frames ++ [r.state.taken] else log.frames
  afterCalls := log.afterCalls ++ [r.ir]

/-- `do { if (Decode(in)==1) { DecodedBuff(); DecodeReset(); } } while(in.available())`
for the native decoder of `P`. -/
def javaLoop (dm : DataModel) (P : Protocol) (ir : IRBuffer) (st : DecodeState)
    (log : JavaLog) : Except Fault (DecodeState × JavaLog) :=
  match _hcall : nativeDecode dm P ir st with
  | .error e => .error e
  | .ok r =>
      let next := if r.ret = 1 then decodeReset r.state else r.state
      if _hleft : r.ir.available then javaLoop dm P r.ir next (log.turn r)
      else .ok (next, log.turn r)
termination_by ir.buffer.length
decreasing_by exact nativeDecode_consumes _hcall _hleft

/-- The words from `in` on after each call of the C loop. -/
def wordsLeft (P : Protocol) (pIn : List LircT) (pLen : Nat) (st : DecodeState) :
    Except Fault (List (List LircT)) :=
  match _hcall : decode P pIn pLen st with
  | .error e => .error e
  | .ok r =>
      let next := if r.ret = 1 then decodeReset r.state else r.state
      if _hleft : 0 < r.pLen then do
        let rest ← wordsLeft P r.pIn r.pLen next
        return r.pIn :: rest
      else .ok [r.pIn]
termination_by pIn.length
decreasing_by exact decode_consumes _hcall _hleft

theorem javaLoop_of_ok {dm : DataModel} {P : Protocol} {ir : IRBuffer} {st : DecodeState}
    {r : NativeDecoded} (h : nativeDecode dm P ir st = .ok r) (log : JavaLog) :
    javaLoop dm P ir st log =
      if r.ir.available then
        javaLoop dm P r.ir (if r.ret = 1 then decodeReset r.state else r.state) (log.turn r)
      else .ok (if r.ret = 1 then decodeReset r.state else r.state, log.turn r) := by
  conv_lhs => rw [javaLoop]
  split
  · rename_i e he
    rw [h] at he
    cases he
  · rename_i r' hr'
    rw [h] at hr'
    cases hr'
    simp only [dite_eq_ite]

theorem wordsLeft_of_ok {P : Protocol} {pIn : List LircT} {pLen : Nat} {st : DecodeState}
    {r : Decoded} (h : decode P pIn pLen st = .ok r) :
    wordsLeft P pIn pLen st =
      if 0 < r.pLen then do
        let rest ← wordsLeft P r.pIn r.pLen
          (if r.ret = 1 then decodeReset r.state else r.state)
        return r.pIn :: rest
      else .ok [r.pIn] := by
  conv_lhs => rw [wordsLeft]
  split
  · rename_i e he
    rw [h] at he
    cases he
  · rename_i r' hr'
    rw [h] at hr'
    cases hr'
    simp only [dite_eq_ite]

/-- A call on whole words returns and leaves whole words. -/
theorem decode_whole (P : Protocol) (ws : List LircT) (st : DecodeState) :
    ∃ r k, decode P ws (4 * ws.length) st = .ok r ∧ r.pIn = ws.drop k ∧
      k ≤ ws.length ∧ r.pLen = 4 * r.pIn.length ∧ (ws ≠ [] → k ≠ 0) := by
  have hreturns := receiveLoop_eq_foldl P (fun s _ => s) ws st ()
  cases hcall : decode P ws (4 * ws.length) st with
  | error e =>
      rw [receiveLoop_of_error P _ hcall] at hreturns
      cases hreturns
  | ok r =>
      obtain ⟨k, hrest, hk, hlen, hsome⟩ := decode_progress hcall
      refine ⟨r, k, rfl, hrest, hk, ?_, ?_⟩
      · rw [hrest, List.length_drop]
        omega
      · intro hne
        have := List.length_pos_iff.mpr hne
        exact hsome (by omega)

/-- One native call on an array that starts with the words: it does what the
decoder does with them and leaves an array of exactly the words that are left. -/
theorem nativeDecode_spec (dm : DataModel) (P : Protocol) (ws : List LircT)
    (tail : List Byte) (hint : (4 * ws.length : Int) ≤ intMax) (st : DecodeState) :
    ∃ r k, decode P ws (4 * ws.length) st = .ok r ∧ r.pIn = ws.drop k ∧
      k ≤ ws.length ∧ r.pLen = 4 * r.pIn.length ∧ (ws ≠ [] → k ≠ 0) ∧
      nativeDecode dm P ⟨bytesOf ws ++ tail, 4 * ws.length⟩ st =
        .ok ⟨r.ret, ⟨bytesOf r.pIn, 4 * r.pIn.length⟩, r.state⟩ := by
  have hmax : intMax = 2147483647 := rfl
  obtain ⟨r, k, hcall, hrest, hk, hlen, hsome⟩ := decode_whole P ws st
  refine ⟨r, k, hcall, hrest, hk, hlen, hsome, ?_⟩
  have hwords : wordsOf ((bytesOf ws ++ tail).take (4 * ws.length)) = ws := by
    rw [List.take_append_of_le_length (Nat.le_of_eq (length_bytesOf ws).symm),
      List.take_of_length_le (Nat.le_of_eq (length_bytesOf ws)), wordsOf_bytesOf]
  have hleft : r.pIn.length = ws.length - k := by
    rw [hrest, List.length_drop]
  have hbytes : ((bytesOf ws ++ tail).drop (4 * k)).take r.pLen = bytesOf r.pIn := by
    have hfront : (bytesOf (ws.take k)).length = 4 * k := by
      rw [length_bytesOf, List.length_take, Nat.min_eq_left hk]
    have hsplit : bytesOf ws = bytesOf (ws.take k) ++ bytesOf r.pIn := by
      rw [hrest, ← bytesOf_append, List.take_append_drop]
    rw [hsplit, List.append_assoc, List.drop_append_of_le_length (Nat.le_of_eq hfront.symm),
      List.drop_of_length_le (Nat.le_of_eq hfront), List.nil_append, hlen,
      List.take_append_of_le_length (Nat.le_of_eq (length_bytesOf r.pIn).symm),
      List.take_of_length_le (Nat.le_of_eq (length_bytesOf r.pIn))]
  have hwrite : irBufferWrite ((bytesOf ws ++ tail).drop (4 * k)) r.pLen =
      ⟨bytesOf r.pIn, 4 * r.pIn.length⟩ := by
    have hfield : toInt (r.pLen : Int) = 4 * r.pIn.length := by
      rw [toInt_of_range (by omega) (by omega)]
      omega
    rw [irBufferWrite, hfield, hbytes]
    by_cases hnone : r.pLen = 0
    · have hnil : r.pIn = [] := List.length_eq_zero_iff.mp (by omega)
      rw [if_pos hnone, hnil]
      rfl
    · rw [if_neg hnone]
  have hreceived : decode P (wordsOf ((bytesOf ws ++ tail).take (4 * ws.length)))
      (4 * ws.length) st = .ok r := by
    rw [hwords, hcall]
  have hnative := nativeDecode_ok dm (bytesOf ws ++ tail) (by omega) hreceived
    (by rw [hwords, hrest]) (by rw [hwords]; exact hk)
  rw [hwrite] at hnative
  exact hnative

/-- The frame a call completes is recorded on both sides. -/
theorem turn_frames (log : JavaLog) (r : Decoded) (ir : IRBuffer) :
    (log.turn ⟨r.ret, ir, r.state⟩).frames =
      (afterCall (fun frames st => frames ++ [st.taken]) r log.frames).2 := by
  unfold JavaLog.turn afterCall
  split <;> rfl

/-- The loops in step: the same frames, and after each call the buffer object
holds the words the C loop has left. -/
theorem javaLoop_spec (dm : DataModel) (P : Protocol) (ws : List LircT) (tail : List Byte)
    (hint : (4 * ws.length : Int) ≤ intMax) (st : DecodeState) (log : JavaLog) :
    ∃ final log' left,
      javaLoop dm P ⟨bytesOf ws ++ tail, 4 * ws.length⟩ st log = .ok (final, log') ∧
      receiveLoop P (fun frames st => frames ++ [st.taken]) ws (4 * ws.length) st
        log.frames = .ok (final, log'.frames) ∧
      wordsLeft P ws (4 * ws.length) st = .ok left ∧
      (∀ rest ∈ left, rest.length ≤ ws.length) ∧
      log'.afterCalls = log.afterCalls ++
        left.map fun rest => ⟨bytesOf rest, 4 * rest.length⟩ := by
  induction hlen : ws.length using Nat.strong_induction_on
    generalizing ws tail st log with
  | _ n ih =>
      subst hlen
      obtain ⟨r, k, hcall, hrest, hk, hpLen, hsome, hnative⟩ :=
        nativeDecode_spec dm P ws tail hint st
      have hleft : r.pIn.length = ws.length - k := by
        rw [hrest, List.length_drop]
      have havailable : (⟨bytesOf r.pIn, 4 * r.pIn.length⟩ : IRBuffer).available = true ↔
          0 < r.pLen := by
        rw [IRBuffer.available, decide_eq_true_eq]
        show 4 * (r.pIn.length : Int) > 0 ↔ 0 < r.pLen
        omega
      rw [javaLoop_of_ok hnative, receiveLoop_of_ok P _ hcall, wordsLeft_of_ok hcall]
      by_cases hmore : 0 < r.pLen
      · have hne : ws ≠ [] := by
          intro hnil
          rw [hnil, List.length_nil] at hleft
          omega
        have hshorter : r.pIn.length < ws.length := by
          have := hsome hne
          have := List.length_pos_iff.mpr hne
          omega
        obtain ⟨final, log', left, hjava, hc, hleftover, hbound, hafter⟩ :=
          ih r.pIn.length hshorter r.pIn [] (by omega)
            (if r.ret = 1 then decodeReset r.state else r.state)
            (log.turn ⟨r.ret, ⟨bytesOf r.pIn, 4 * r.pIn.length⟩, r.state⟩) rfl
        rw [List.append_nil] at hjava
        refine ⟨final, log', r.pIn :: left, ?_, ?_, ?_, ?_, ?_⟩
        · rw [if_pos (havailable.mpr hmore)]
          exact hjava
        · have hstate : (afterCall (fun frames st => frames ++ [st.taken]) r log.frames).1 =
              if r.ret = 1 then decodeReset r.state else r.state := by
            unfold afterCall
            split <;> rfl
          rw [if_pos hmore, hstate, ← turn_frames, hpLen]
          exact hc
        · rw [if_pos hmore, hpLen, hleftover, ok_bind, pure_eq_ok]
        · intro rest hmem
          rcases List.mem_cons.mp hmem with rfl | hmem
          · omega
          · have := hbound rest hmem
            omega
        · rw [hafter, JavaLog.turn, List.append_assoc, List.map_cons,
            List.singleton_append]
      · refine ⟨if r.ret = 1 then decodeReset r.state else r.state,
          log.turn ⟨r.ret, ⟨bytesOf r.pIn, 4 * r.pIn.length⟩, r.state⟩, [r.pIn],
          ?_, ?_, ?_, ?_, rfl⟩
        · rw [if_neg (fun h => hmore (havailable.mp h))]
        · rw [if_neg hmore, turn_frames]
          unfold afterCall
          split <;> rfl
        · rw [if_neg hmore]
        · intro rest hmem
          obtain rfl := List.mem_singleton.mp hmem
          omega

/-! ## Main result -/

/-- The Java path of one decoder is the native one: the words come back as they
were put, the loop records the frames the C loop takes and leaves the decoder as
it does, and after each native call the buffer object holds exactly the words not
yet consumed. -/
def JavaPathFaithful (dm : DataModel) (P : Protocol) (ir : IRBuffer) (ws : List LircT)
    (st : DecodeState) : Prop :=
  ∃ filled : IRBuffer,
    ir.putAll ws = .ok (filled, (ws.length : Int)) ∧
    (∀ (i : Nat) (hi : i < ws.length), filled.get i = .ok ws[i]) ∧
    ∃ final log left,
      javaLoop dm P filled st ⟨[], []⟩ = .ok (final, log) ∧
      receiveFrames P st ws = .ok (final, log.frames) ∧
      wordsLeft P ws (sizeofLircT * ws.length) st = .ok left ∧
      List.Forall₂ HoldsWords log.afterCalls left

theorem javaPathFaithful (dm : DataModel) (P : Protocol) {ir : IRBuffer}
    (hempty : ir.len = 0) (ws : List LircT) (hroom : 4 * ws.length ≤ ir.buffer.length)
    (hjava : (ir.buffer.length : Int) ≤ intMax) (st : DecodeState) :
    JavaPathFaithful dm P ir ws st := by
  have hint : (4 * ws.length : Int) ≤ intMax := by omega
  obtain ⟨final, log, left, hloop, hc, hleft, hbound, hafter⟩ :=
    javaLoop_spec dm P ws (ir.buffer.drop (4 * ws.length)) hint st ⟨[], []⟩
  refine ⟨_, putAll_spec hempty ws hroom hjava, get_bytesOf ws _ _ hint, final, log, left,
    hloop, hc, hleft, ?_⟩
  rw [hafter, List.nil_append, List.forall₂_map_left_iff, List.forall₂_same]
  intro rest hmem
  have := hbound rest hmem
  exact holdsWords_bytesOf rest (by omega)

/-- The Java decoding path equals the native one, with either decoder, for every
list of words put into a fresh buffer object that has room for them, and from
every decoder state. -/
theorem java_path_faithful (dm : DataModel) (ir : IRBuffer) (hempty : ir.len = 0)
    (ws : List LircT) (hroom : 4 * ws.length ≤ ir.buffer.length)
    (hjava : (ir.buffer.length : Int) ≤ intMax) (st : DecodeState) :
    JavaPathFaithful dm nec ir ws st ∧ JavaPathFaithful dm unkn0 ir ws st :=
  ⟨javaPathFaithful dm nec hempty ws hroom hjava st,
    javaPathFaithful dm unkn0 hempty ws hroom hjava st⟩

/-- A negative `int` and a frame end, in an array of three words. -/
theorem java_path_faithful_negative :
    JavaPathFaithful .ilp32 nec (IRBuffer.ofCount 3) [0xFFFFFFFF#32, 77000#32]
        DecodeState.start ∧
      JavaPathFaithful .ilp32 unkn0 (IRBuffer.ofCount 3) [0xFFFFFFFF#32, 77000#32]
        DecodeState.start :=
  java_path_faithful .ilp32 (IRBuffer.ofCount 3) rfl [0xFFFFFFFF#32, 77000#32]
    (by decide) (by decide) DecodeState.start

end IrBridge.Client
