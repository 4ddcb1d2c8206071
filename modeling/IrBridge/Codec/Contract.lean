/-
  Codec/Contract.lean --- what any history of decoder calls leaves and returns.

  The callers read the decode buffer as a C string between calls, so the buffer
  has to be a string after every call, whatever was decoded or reset before it.
  The contract is stated over `Call` histories from program start, with its own
  notion of delimiter and of the words a call consumes: a call is one delimiter
  search, and the bits it stores are those of the spaces it passed on the way.

  The proof follows one call word by word (`decode_spec`) and then the history
  call by call (`execCalls_holds`).
-/
import IrBridge.Codec.Buffer

set_option autoImplicit false

namespace IrBridge.Codec

open IrBridge.Foundation
open IrBridge.Platform

/-! ## Histories -/

/-- One call of the decoder's interface. -/
inductive Call where
  /-- `*_decode` on a block of whole words -/
  | decode (ws : List LircT)
  /-- `*_decode_reset` -/
  | reset

/-- The call, made in the state `st`. -/
def Call.exec (P : Protocol) (st : DecodeState) : Call → Except Fault DecodeState
  | .decode ws => do
      let r ← Codec.decode P ws (sizeofLircT * ws.length) st
      return r.state
  | .reset => .ok (decodeReset st)

/-- The calls of a history, made one after another from program start. -/
def execCalls (P : Protocol) (calls : List Call) : Except Fault DecodeState :=
  calls.foldlM (Call.exec P) DecodeState.start

/-- The blocks decoded since the last reset, after a history that left `blocks`. -/
def sinceResetFrom (blocks : List (List LircT)) (calls : List Call) : List (List LircT) :=
  calls.foldl (fun blocks call =>
    match call with
    | .decode ws => blocks ++ [ws]
    | .reset => []) blocks

/-- The blocks decoded since the last reset. -/
def sinceReset (calls : List Call) : List (List LircT) := sinceResetFrom [] calls

/-! ## What a call is meant to do -/

/-- The words up to and including the first delimiter, or all of them. -/
def consumed (delimiter : LircT → Bool) : List LircT → List LircT
  | [] => []
  | w :: ws => if delimiter w then [w] else w :: consumed delimiter ws

/-- The bits of the non-delimiter spaces among the consumed words. -/
def consumedBits (delimiter : LircT → Bool) (td : Nat) (ws : List LircT) : List Bool :=
  ((consumed delimiter ws).filter fun w => !delimiter w && !isPulse w).map
    fun w => decide (lenght w > td)

/-- The contents of the buffer after a history. -/
def contents (delimiter : LircT → Bool) (td : Nat) (calls : List Call) : List Bool :=
  ((sinceReset calls).flatMap (consumedBits delimiter td)).take 1022

/-- NEC: any word, pulse or space, longer than `NEC_TS`. -/
def necDelimiter (w : LircT) : Bool := decide (lenght w > necTS)

/-- UNKN0: a space longer than `UNKN0_TS`. -/
def unkn0Delimiter (w : LircT) : Bool := !isPulse w && decide (lenght w > unkn0TS)

/-- The contract of a decoder with the given delimiters and threshold: after
every history the globals are the NUL-padded string of the contents, and the
next decode call, on whatever block, is one delimiter search. -/
def Contract (P : Protocol) (delimiter : LircT → Bool) (td : Nat) : Prop :=
  ∀ calls : List Call, ∃ st : DecodeState,
    execCalls P calls = .ok st ∧
    st.idx ≤ 1022 ∧
    st.idx = (contents delimiter td calls).length ∧
    st.buff = (contents delimiter td calls).map CString.bitChar ++
      List.replicate (1024 - st.idx) '\x00' ∧
    st.taken.chars = (contents delimiter td calls).map CString.bitChar ∧
    st.taken.strlen = st.idx ∧
    ∀ ws : List LircT, ∃ r : Decoded,
      decode P ws (sizeofLircT * ws.length) st = .ok r ∧
      ws = consumed delimiter ws ++ r.pIn ∧
      r.pLen + 4 * (consumed delimiter ws).length = sizeofLircT * ws.length ∧
      (r.ret = 0 ∨ r.ret = 1) ∧
      (r.ret = 1 ↔ (∃ w ∈ ws, delimiter w = true) ∧ r.state.taken.chars ≠ [])

/-! ## One call -/

section OneCall

variable {P : Protocol} {delimiter : LircT → Bool}

theorem consumed_cons_end {w : LircT} (hend : delimiter w = true) (ws : List LircT) :
    consumed delimiter (w :: ws) = [w] :=
  if_pos hend

theorem consumed_cons_data {w : LircT} (hdata : delimiter w = false) (ws : List LircT) :
    consumed delimiter (w :: ws) = w :: consumed delimiter ws :=
  if_neg (by rw [hdata]; exact Bool.false_ne_true)

theorem consumedBits_end {w : LircT} (hend : delimiter w = true) (td : Nat)
    (ws : List LircT) : consumedBits delimiter td (w :: ws) = [] := by
  rw [consumedBits, consumed_cons_end hend]
  simp [hend]

theorem consumedBits_pulse {w : LircT} (hdata : delimiter w = false)
    (hpulse : isPulse w = true) (td : Nat) (ws : List LircT) :
    consumedBits delimiter td (w :: ws) = consumedBits delimiter td ws := by
  rw [consumedBits, consumed_cons_data hdata, List.filter_cons_of_neg (by simp [hpulse]),
    consumedBits]

theorem consumedBits_space {w : LircT} (hdata : delimiter w = false)
    (hspace : isPulse w = false) (td : Nat) (ws : List LircT) :
    consumedBits delimiter td (w :: ws) =
      decide (lenght w > td) :: consumedBits delimiter td ws := by
  rw [consumedBits, consumed_cons_data hdata,
    List.filter_cons_of_pos (by simp [hdata, hspace]), List.map_cons, consumedBits]

/-- Cutting what is stored before more arrives loses nothing that would stay. -/
theorem take_append_take {α : Type} (n : Nat) (xs ys : List α) :
    (xs.take n ++ ys).take n = (xs ++ ys).take n := by
  rw [List.take_append, List.take_take, Nat.min_self, List.take_append, List.length_take]
  congr 2
  omega

/-- A call on a block of whole words, from a buffer that holds `bits`: where it
stops, what it stores and what it returns. -/
theorem decode_spec (hdelim : ∀ w, P.endOfFrame (isPulse w) (lenght w) = delimiter w)
    {st : DecodeState} {bits : List Bool} (h : Holds st bits) (ws : List LircT) :
    ∃ r : Decoded,
      decode P ws (sizeofLircT * ws.length) st = .ok r ∧
      Holds r.state ((bits ++ consumedBits delimiter P.td ws).take capacity) ∧
      ws = consumed delimiter ws ++ r.pIn ∧
      r.pLen = sizeofLircT * r.pIn.length ∧
      r.ret = if (∃ w ∈ ws, delimiter w = true) ∧ 0 < r.state.idx then 1 else 0 := by
  induction ws generalizing st bits with
  | nil =>
      refine ⟨⟨0, [], 0, st⟩, decode_zero P [] st, ?_, rfl, rfl, ?_⟩
      · rw [consumedBits, consumed, List.filter_nil, List.map_nil, List.append_nil,
          List.take_of_length_le h.fits]
        exact h
      · rw [if_neg]
        rintro ⟨⟨w, hw, _⟩, _⟩
        exact List.not_mem_nil hw
  | cons w ws ih =>
      have hlen : sizeofLircT * (w :: ws).length = sizeofLircT * ws.length + 4 := rfl
      rw [hlen]
      cases hend : delimiter w with
      | true =>
          have hcall := decode_cons_end ((hdelim w).trans hend) ws (sizeofLircT * ws.length) st
          refine ⟨_, hcall, ?_, ?_, rfl, ?_⟩
          · rw [consumedBits_end hend, List.append_nil, List.take_of_length_le h.fits]
            exact h
          · rw [consumed_cons_end hend, List.singleton_append]
          · have hsome : ∃ w' ∈ w :: ws, delimiter w' = true :=
              ⟨w, List.mem_cons_self, hend⟩
            simp only [hsome, true_and]
      | false =>
          rw [decode_cons_data ((hdelim w).trans hend)]
          have hmore : (∃ w' ∈ w :: ws, delimiter w' = true) ↔
              ∃ w' ∈ ws, delimiter w' = true := by
            simp [hend]
          rw [consumed_cons_data hend]
          simp only [hmore, List.cons_append, List.cons.injEq, true_and]
          cases hpulse : isPulse w with
          | true =>
              rw [consumedBits_pulse hend hpulse]
              exact ih (by rw [deal_pulse P hpulse]; exact h)
          | false =>
              rw [consumedBits_space hend hpulse]
              obtain ⟨r, hcall, hholds, hrest⟩ := ih (h.deal hpulse)
              refine ⟨r, hcall, ?_, hrest⟩
              rwa [Framing.store_eq_take h.fits, take_append_take, List.append_assoc,
                List.singleton_append] at hholds

end OneCall

/-! ## Histories of calls -/

/-- The representation along a history. -/
theorem execCalls_holds {P : Protocol} {delimiter : LircT → Bool}
    (hdelim : ∀ w, P.endOfFrame (isPulse w) (lenght w) = delimiter w)
    (calls : List Call) {st : DecodeState} (blocks : List (List LircT))
    (h : Holds st ((blocks.flatMap (consumedBits delimiter P.td)).take capacity)) :
    ∃ final : DecodeState,
      calls.foldlM (Call.exec P) st = .ok final ∧
      Holds final (((sinceResetFrom blocks calls).flatMap
        (consumedBits delimiter P.td)).take capacity) := by
  induction calls generalizing st blocks with
  | nil => exact ⟨st, rfl, h⟩
  | cons call calls ih =>
      rw [List.foldlM_cons]
      cases call with
      | reset => exact ih [] (holds_reset st)
      | decode ws =>
          obtain ⟨r, hcall, hholds, _⟩ := decode_spec hdelim h ws
          rw [take_append_take] at hholds
          have hexec : Call.exec P st (.decode ws) = .ok r.state := by
            rw [Call.exec, hcall]
            rfl
          rw [hexec, ok_bind]
          apply ih (blocks ++ [ws])
          rwa [List.flatMap_append, List.flatMap_singleton]

/-- A decoder whose frame ends are the given delimiters keeps the contract. -/
theorem contract_of_delimiter {P : Protocol} {delimiter : LircT → Bool}
    (hdelim : ∀ w, P.endOfFrame (isPulse w) (lenght w) = delimiter w) :
    Contract P delimiter P.td := by
  intro calls
  obtain ⟨st, hexec, hholds⟩ := execCalls_holds hdelim calls [] holds_start
  have hidx := hholds.idx_eq
  have htaken := congrArg CString.chars hholds.taken_eq
  refine ⟨st, hexec, hidx ▸ hholds.fits, hidx, ?_, htaken, ?_, ?_⟩
  · rw [hidx]
    exact hholds.buff_eq
  · rw [hholds.taken_eq, CString.strlen_ofBits, hidx]
  · intro ws
    obtain ⟨r, hcall, hafter, hsplit, hlen, hret⟩ := decode_spec hdelim hholds ws
    refine ⟨r, hcall, hsplit, ?_, ?_, ?_⟩
    · have hcount := congrArg List.length hsplit
      rw [List.length_append] at hcount
      rw [hlen, hcount, sizeofLircT]
      omega
    · rw [hret]
      split
      · exact Or.inr rfl
      · exact Or.inl rfl
    · have hempty : r.state.taken.chars ≠ [] ↔ 0 < r.state.idx := by
        rw [hafter.taken_eq, hafter.idx_eq, List.length_pos_iff]
        exact not_congr List.map_eq_nil_iff
      rw [hempty, hret]
      constructor
      · intro hone
        by_contra hnot
        rw [if_neg hnot] at hone
        exact Nat.zero_ne_one hone
      · intro hboth
        exact if_pos hboth

/-- Exact behaviour and representation invariant of both decoders, over every
history of decode and reset calls from program start. -/
theorem decoders_keep_contract :
    Contract nec necDelimiter necTD ∧ Contract unkn0 unkn0Delimiter unkn0TD :=
  ⟨contract_of_delimiter fun _ => rfl,
    contract_of_delimiter fun _ => rfl⟩

end IrBridge.Codec
