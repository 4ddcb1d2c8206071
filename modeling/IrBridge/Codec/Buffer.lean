/-
  Codec/Buffer.lean --- the decode buffer as a bounded list of bits.

  `Holds st bits` says that the globals of a decoder represent `bits`: the
  characters below the index are the bits, everything from the index on is NUL,
  and at most `capacity` bits are stored.  It holds in every state that decode
  and reset calls can reach, and under it the receive loop is the framed
  receiver of `Foundation/Framing.lean` over the classified words
  (`run_refines`).
-/
import IrBridge.Codec.Receive
import IrBridge.Foundation.Framing

set_option autoImplicit false

namespace IrBridge.Codec

open IrBridge.Foundation
open IrBridge.Platform

/-- Bits beyond `*_DECODE_BUFF_SIZE - 2` are dropped. -/
def capacity : Nat := decodeBuffSize - 2

/-- The globals represent a list of bits. -/
structure Holds (st : DecodeState) (bits : List Bool) : Prop where
  fits : bits.length ≤ capacity
  idx_eq : st.idx = bits.length
  buff_eq : st.buff = bits.map CString.bitChar ++
    List.replicate (decodeBuffSize - bits.length) '\x00'

/-- What a word means to a decoder. -/
def Protocol.classify (P : Protocol) (data : LircT) : Symbol Bool :=
  if P.endOfFrame (isPulse data) (lenght data) then .delimiter
  else if isPulse data then .neutral
  else .datum (decide (lenght data > P.td))

/-! ## Representation -/

theorem holds_start : Holds DecodeState.start [] :=
  ⟨Nat.zero_le _, rfl, rfl⟩

theorem holds_reset (st : DecodeState) : Holds (decodeReset st) [] :=
  ⟨Nat.zero_le _, rfl, rfl⟩

/-- A caller that reads `BUFF` as a string reads exactly the bits. -/
theorem Holds.taken_eq {st : DecodeState} {bits : List Bool} (h : Holds st bits) :
    st.taken = CString.ofBits bits := by
  rw [DecodeState.taken, h.buff_eq, CString.ofBuffer_bits_padded]

/-- Storing a bit, or dropping it when the buffer is full. -/
theorem Holds.deal {P : Protocol} {st : DecodeState} {bits : List Bool}
    (h : Holds st bits) {data : LircT} (hspace : isPulse data = false) :
    Holds (P.deal data st)
      (Framing.store capacity bits (decide (lenght data > P.td))) := by
  have hcap : capacity = 1022 := rfl
  have hsize : decodeBuffSize = 1024 := rfl
  have hidx := h.idx_eq
  unfold Protocol.deal Framing.store
  by_cases hroom : bits.length < capacity
  · rw [if_pos (by omega), if_pos (by rw [hspace]; rfl), if_pos hroom]
    refine ⟨by simp; omega, by simp [hidx], ?_⟩
    have hpad : decodeBuffSize - bits.length =
        (decodeBuffSize - (bits.length + 1)) + 1 := by omega
    simp only [h.buff_eq, hidx, hpad, List.replicate_succ, List.map_append, List.map_cons,
      List.map_nil, List.length_append, List.length_cons, List.length_nil]
    rw [List.set_append_right _ _ (by simp), List.length_map, Nat.sub_self,
      List.set_cons_zero]
    simp
  · rw [if_neg (by omega), if_neg hroom]
    exact h

/-- A pulse that ends no frame changes nothing. -/
theorem deal_pulse (P : Protocol) {data : LircT} (hpulse : isPulse data = true)
    (st : DecodeState) : P.deal data st = st := by
  unfold Protocol.deal
  simp [hpulse]

/-! ## Refinement -/

theorem Protocol.classify_end {P : Protocol} {data : LircT}
    (hend : P.endOfFrame (isPulse data) (lenght data) = true) :
    P.classify data = .delimiter :=
  if_pos hend

theorem Protocol.classify_pulse {P : Protocol} {data : LircT}
    (hdata : P.endOfFrame (isPulse data) (lenght data) = false)
    (hpulse : isPulse data = true) : P.classify data = .neutral := by
  unfold Protocol.classify
  rw [hdata, hpulse]
  rfl

theorem Protocol.classify_space {P : Protocol} {data : LircT}
    (hdata : P.endOfFrame (isPulse data) (lenght data) = false)
    (hspace : isPulse data = false) :
    P.classify data = .datum (decide (lenght data > P.td)) := by
  unfold Protocol.classify
  rw [hdata, hspace]
  rfl

/-- One word of the receive loop is one symbol of the framed receiver. -/
theorem step_refines (P : Protocol) (st : DecodeState) (bits : List Bool)
    (data : LircT) (h : Holds st bits) :
    Holds (P.wordMachine.step st data).1
        ((Framing.machine capacity).step bits (P.classify data)).1 ∧
      (P.wordMachine.step st data).2 =
        ((Framing.machine capacity).step bits (P.classify data)).2.map CString.ofBits := by
  cases hend : P.endOfFrame (isPulse data) (lenght data) with
  | true =>
      rw [Protocol.step_end hend, Protocol.classify_end hend]
      cases bits with
      | nil =>
          rw [if_neg (by rw [h.idx_eq]; exact Nat.lt_irrefl 0)]
          exact ⟨h, rfl⟩
      | cons b bits =>
          rw [if_pos (by rw [h.idx_eq]; exact Nat.succ_pos _), h.taken_eq]
          exact ⟨holds_reset st, rfl⟩
  | false =>
      rw [Protocol.step_data hend]
      cases hpulse : isPulse data with
      | true =>
          rw [Protocol.classify_pulse hend hpulse, deal_pulse P hpulse]
          exact ⟨h, rfl⟩
      | false =>
          rw [Protocol.classify_space hend hpulse]
          exact ⟨h.deal hpulse, rfl⟩

/-- The receive loop refines the framed receiver. -/
theorem run_refines (P : Protocol) {st : DecodeState} {bits : List Bool}
    (h : Holds st bits) (ws : List LircT) :
    Holds (P.wordMachine.run st ws).1
        ((Framing.machine capacity).run bits (ws.map P.classify)).1 ∧
      (P.wordMachine.run st ws).2 =
        ((Framing.machine capacity).run bits (ws.map P.classify)).2.map CString.ofBits :=
  Transducer.run_simulation P.classify CString.ofBits (step_refines P) h ws

/-! ## Reachable states -/

/-- The states decode and reset calls lead to from program start.  The calls
are made with any words and any length. -/
inductive Reachable (P : Protocol) : DecodeState → Prop where
  | start : Reachable P DecodeState.start
  | decode {st : DecodeState} {pIn : List LircT} {pLen : Nat} {r : Decoded} :
      Reachable P st → decode P pIn pLen st = .ok r → Reachable P r.state
  | reset {st : DecodeState} : Reachable P st → Reachable P (decodeReset st)

/-- A decode call keeps the representation. -/
theorem Holds.decode {P : Protocol} {pIn : List LircT} {pLen : Nat}
    {st : DecodeState} {bits : List Bool} (h : Holds st bits) {r : Decoded}
    (hcall : decode P pIn pLen st = .ok r) : ∃ bits', Holds r.state bits' := by
  induction pIn generalizing pLen st bits with
  | nil =>
      cases pLen with
      | zero =>
          rw [decode_zero] at hcall
          cases hcall
          exact ⟨bits, h⟩
      | succ n =>
          rw [decode_nil] at hcall
          cases hcall
  | cons data rest ih =>
      rcases Nat.lt_or_ge pLen 4 with hshort | hwhole
      · by_cases hzero : pLen = 0
        · subst hzero
          rw [decode_zero] at hcall
          cases hcall
          exact ⟨bits, h⟩
        · rw [decode_cons_short P data rest hzero hshort] at hcall
          cases hcall
      · obtain ⟨n, rfl⟩ : ∃ n, pLen = n + 4 := ⟨pLen - 4, by omega⟩
        cases hend : P.endOfFrame (isPulse data) (lenght data) with
        | true =>
            rw [decode_cons_end hend] at hcall
            cases hcall
            exact ⟨bits, h⟩
        | false =>
            rw [decode_cons_data hend] at hcall
            cases hpulse : isPulse data with
            | true => exact ih (by rw [deal_pulse P hpulse]; exact h) hcall
            | false => exact ih (h.deal hpulse) hcall

/-- Every reachable state represents some list of bits. -/
theorem Reachable.holds {P : Protocol} {st : DecodeState} (h : Reachable P st) :
    ∃ bits, Holds st bits := by
  induction h with
  | start => exact ⟨[], holds_start⟩
  | decode _ hcall ih =>
      obtain ⟨bits, hbits⟩ := ih
      exact hbits.decode hcall
  | reset _ _ => exact ⟨[], holds_reset _⟩

end IrBridge.Codec
