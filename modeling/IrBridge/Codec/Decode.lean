/-
  Codec/Decode.lean --- `nec_decode`, `unkn0_decode` and the receive loop.

  The two decoders share one text.  They differ in the thresholds and in what
  ends a frame: for NEC any word longer than `NEC_TS`, for UNKN0 a space longer
  than `UNKN0_TS`.  `decode` is that text; `necDecode` and `unkn0Decode` are its
  two instances.

  Every caller wraps the decoder in the same loop,

      do { if (DECODE(&in, &len)) { use BUFF; RESET(); } } while (len > 0);

  which is `receiveLoopIn` where the use of `BUFF` may itself fault, and
  `receiveLoop` where it cannot.  The main result of this file is that, on
  word-aligned input, the loop is a letter-at-a-time transducer
  (`receiveLoopIn_eq_run`, `receiveLoop_eq_run`): where a call stops, and where the
  transport cut the words, leaves no trace.
-/
import IrBridge.Platform.Types
import IrBridge.Foundation.Transducer

set_option autoImplicit false

namespace IrBridge.Codec

open IrBridge.Foundation
open IrBridge.Platform

/-! ## Words -/

/-- `PULSE_BIT`. -/
def pulseBit : LircT := 0x01000000#32

/-- `PULSE_MASK`. -/
def pulseMask : LircT := 0x00FFFFFF#32

/-- `int isPulse = (data & PULSE_BIT);` -/
def isPulse (data : LircT) : Bool := (data &&& pulseBit) != 0#32

/-- `int lenght = (int)(data & PULSE_MASK);` -/
def lenght (data : LircT) : Nat := (data &&& pulseMask).toNat

/-! ## Decoder state -/

/-- `nec_DECODE_BUFF_SIZE` and `unkn0_DECODE_BUFF_SIZE`. -/
def decodeBuffSize : Nat := 1024

/-- `*_DECODE_BUFF` and `*_DECODE_BUF_IDX`. -/
structure DecodeState where
  buff : List Char
  idx : Nat
  size_eq : buff.length = decodeBuffSize
  deriving DecidableEq

/-- The globals at program start. -/
def DecodeState.start : DecodeState where
  buff := List.replicate decodeBuffSize '\x00'
  idx := 0
  size_eq := List.length_replicate

/-- `*_decode_reset`: the index and all `*_DECODE_BUFF_SIZE` characters are
overwritten, whatever they were. -/
def decodeReset (_st : DecodeState) : DecodeState where
  idx := 0
  buff := List.replicate decodeBuffSize '\x00'
  size_eq := List.length_replicate

/-- `BUFF`, read by the callers as a C string. -/
def DecodeState.taken (st : DecodeState) : CString := CString.ofBuffer st.buff

/-! ## The decoder -/

/-- What distinguishes the two protocols on the receiving side. -/
structure Protocol where
  /-- `is end of frame ?` -/
  endOfFrame : Bool → Nat → Bool
  /-- the threshold above which a space is a `1` -/
  td : Nat

/-- `deal with data (drop if overflow!)`. -/
def Protocol.deal (P : Protocol) (data : LircT) (st : DecodeState) : DecodeState :=
  if st.idx < decodeBuffSize - 2 then
    if !isPulse data then
      { buff := st.buff.set st.idx (CString.bitChar (decide (lenght data > P.td)))
        idx := st.idx + 1
        size_eq := by rw [List.length_set, st.size_eq] }
    else st
  else st

/-- What a call leaves behind: its return value, `*pIn` (the words from there
to the end of the received bytes), `*pLen` and the globals. -/
structure Decoded where
  ret : Nat
  pIn : List LircT
  pLen : Nat
  state : DecodeState
  deriving DecidableEq

/-- `*_decode(&in, &len)`.  `pIn` holds the whole words between `in` and the end
of the received bytes, so reading a word when it is empty reads outside them. -/
def decode (P : Protocol) : List LircT → Nat → DecodeState → Except Fault Decoded
  | pIn, pLen, st =>
      if pLen = 0 then .ok ⟨0, pIn, pLen, st⟩
      else
        match pIn with
        | [] => .error .readOutside
        | data :: rest =>
            if pLen < sizeofLircT then .error .lengthWraps
            else if P.endOfFrame (isPulse data) (lenght data) then
              .ok ⟨if 0 < st.idx then 1 else 0, rest, pLen - sizeofLircT, st⟩
            else decode P rest (pLen - sizeofLircT) (P.deal data st)

theorem decode_zero (P : Protocol) (pIn : List LircT) (st : DecodeState) :
    decode P pIn 0 st = .ok ⟨0, pIn, 0, st⟩ := by
  unfold decode
  rfl

theorem decode_nil (P : Protocol) (n : Nat) (st : DecodeState) :
    decode P [] (n + 1) st = .error .readOutside := by
  unfold decode
  rfl

/-- A call whose next word ends a frame returns there. -/
theorem decode_cons_end {P : Protocol} {data : LircT}
    (hend : P.endOfFrame (isPulse data) (lenght data) = true) (rest : List LircT)
    (n : Nat) (st : DecodeState) :
    decode P (data :: rest) (n + 4) st =
      .ok ⟨if 0 < st.idx then 1 else 0, rest, n, st⟩ := by
  have hwhole : ¬ n + 4 < sizeofLircT := by unfold sizeofLircT; omega
  unfold decode
  rw [if_neg (Nat.succ_ne_zero _)]
  simp only [hend, if_true, if_neg hwhole]
  rfl

/-- A call whose next word is data stores it and runs on. -/
theorem decode_cons_data {P : Protocol} {data : LircT}
    (hdata : P.endOfFrame (isPulse data) (lenght data) = false) (rest : List LircT)
    (n : Nat) (st : DecodeState) :
    decode P (data :: rest) (n + 4) st = decode P rest n (P.deal data st) := by
  have hwhole : ¬ n + 4 < sizeofLircT := by unfold sizeofLircT; omega
  conv_lhs => unfold decode
  rw [if_neg (Nat.succ_ne_zero _)]
  simp only [hdata, if_neg hwhole, Bool.false_eq_true, if_false]
  rfl

/-- With fewer than four bytes left, but not none, a word that is read anyway
makes the unsigned length wrap. -/
theorem decode_cons_short (P : Protocol) (data : LircT) (rest : List LircT)
    {n : Nat} (hpos : n ≠ 0) (hshort : n < 4) (st : DecodeState) :
    decode P (data :: rest) n st = .error .lengthWraps := by
  unfold decode
  rw [if_neg hpos]
  exact if_pos hshort

/-- A call consumes some words from the front, at least one unless it was
called with none, and its length goes down by four for each. -/
theorem decode_progress {P : Protocol} {pIn : List LircT} {pLen : Nat}
    {st : DecodeState} {r : Decoded} (h : decode P pIn pLen st = .ok r) :
    ∃ k, r.pIn = pIn.drop k ∧ k ≤ pIn.length ∧ r.pLen + 4 * k = pLen ∧
      (pLen ≠ 0 → k ≠ 0) := by
  induction pIn generalizing pLen st with
  | nil =>
      cases pLen with
      | zero =>
          rw [decode_zero] at h
          cases h
          exact ⟨0, rfl, Nat.le_refl 0, rfl, fun hpos => absurd rfl hpos⟩
      | succ n =>
          rw [decode_nil] at h
          cases h
  | cons data rest ih =>
      rcases Nat.lt_or_ge pLen 4 with hshort | hwhole
      · by_cases hzero : pLen = 0
        · subst hzero
          rw [decode_zero] at h
          cases h
          exact ⟨0, rfl, Nat.zero_le _, rfl, fun hpos => absurd rfl hpos⟩
        · rw [decode_cons_short P data rest hzero hshort] at h
          cases h
      · obtain ⟨n, rfl⟩ : ∃ n, pLen = n + 4 := ⟨pLen - 4, by omega⟩
        cases hend : P.endOfFrame (isPulse data) (lenght data) with
        | true =>
            rw [decode_cons_end hend] at h
            cases h
            exact ⟨1, rfl, by simp, rfl, fun _ => Nat.one_ne_zero⟩
        | false =>
            rw [decode_cons_data hend] at h
            obtain ⟨k, hrest, hk, hlen, _⟩ := ih h
            refine ⟨k + 1, by rw [hrest, List.drop_succ_cons], Nat.succ_le_succ hk, ?_,
              fun _ => Nat.succ_ne_zero k⟩
            omega

/-- A call that leaves bytes to process has consumed at least one word. -/
theorem decode_consumes {P : Protocol} {pIn : List LircT} {pLen : Nat}
    {st : DecodeState} {r : Decoded} (h : decode P pIn pLen st = .ok r)
    (hleft : 0 < r.pLen) : r.pIn.length < pIn.length := by
  obtain ⟨k, hrest, hk, hlen, hsome⟩ := decode_progress h
  have := hsome (by omega)
  rw [hrest, List.length_drop]
  omega

/-- The receive loop over one block.  `body` is what the caller does with a
completed frame, in `BUFF` and `BUFF_IDX`, before the reset. -/
def receiveLoop {σ : Type} (P : Protocol) (body : σ → DecodeState → σ)
    (pIn : List LircT) (pLen : Nat) (st : DecodeState) (s : σ) :
    Except Fault (DecodeState × σ) :=
  match _hcall : decode P pIn pLen st with
  | .error e => .error e
  | .ok r =>
      let next := if r.ret = 1 then (decodeReset r.state, body s r.state) else (r.state, s)
      if _hleft : 0 < r.pLen then receiveLoop P body r.pIn r.pLen next.1 next.2
      else .ok next
termination_by pIn.length
decreasing_by exact decode_consumes _hcall _hleft

/-- The state after a call, around a body that may fault: reset if a frame was
taken. -/
def afterCallIn {σ : Type} (body : σ → DecodeState → Except Fault σ) (r : Decoded) (s : σ) :
    Except Fault (DecodeState × σ) :=
  if r.ret = 1 then (body s r.state).map (decodeReset r.state, ·) else .ok (r.state, s)

/-- The same loop around such a body. -/
def receiveLoopIn {σ : Type} (P : Protocol) (body : σ → DecodeState → Except Fault σ)
    (pIn : List LircT) (pLen : Nat) (st : DecodeState) (s : σ) :
    Except Fault (DecodeState × σ) :=
  match _hcall : decode P pIn pLen st with
  | .error e => .error e
  | .ok r => do
      let next ← afterCallIn body r s
      if _hleft : 0 < r.pLen then receiveLoopIn P body r.pIn r.pLen next.1 next.2
      else return next
termination_by pIn.length
decreasing_by exact decode_consumes _hcall _hleft

/-! ## Word at a time -/

/-- The receive loop seen one word at a time: what a word does to the decoder
and, when it completes a frame, to the caller's state. -/
def wordStep {σ : Type} (P : Protocol) (body : σ → DecodeState → σ)
    (now : DecodeState × σ) (data : LircT) : DecodeState × σ :=
  if P.endOfFrame (isPulse data) (lenght data) then
    if 0 < now.1.idx then (decodeReset now.1, body now.2 now.1) else now
  else (P.deal data now.1, now.2)

/-- The step around a body that may fault. -/
def wordStepIn {σ : Type} (P : Protocol) (body : σ → DecodeState → Except Fault σ)
    (now : DecodeState × σ) (data : LircT) : Except Fault (DecodeState × σ) :=
  if P.endOfFrame (isPulse data) (lenght data) then
    if 0 < now.1.idx then (body now.2 now.1).map (decodeReset now.1, ·) else .ok now
  else .ok (P.deal data now.1, now.2)

/-- The same steps as a machine that emits the frames. -/
def Protocol.wordMachine (P : Protocol) : Transducer DecodeState LircT CString where
  step st data :=
    if P.endOfFrame (isPulse data) (lenght data) then
      if 0 < st.idx then (decodeReset st, [st.taken]) else (st, [])
    else (P.deal data st, [])

theorem Protocol.step_end {P : Protocol} {data : LircT}
    (hend : P.endOfFrame (isPulse data) (lenght data) = true) (st : DecodeState) :
    P.wordMachine.step st data =
      if 0 < st.idx then (decodeReset st, [st.taken]) else (st, []) :=
  if_pos hend

theorem Protocol.step_data {P : Protocol} {data : LircT}
    (hdata : P.endOfFrame (isPulse data) (lenght data) = false) (st : DecodeState) :
    P.wordMachine.step st data = (P.deal data st, []) :=
  if_neg (by rw [hdata]; exact Bool.false_ne_true)

section ReceiveLoopIn

variable {σ : Type} (P : Protocol) (body : σ → DecodeState → Except Fault σ)

theorem receiveLoopIn_of_error {pIn : List LircT} {pLen : Nat} {st : DecodeState}
    {e : Fault} (h : decode P pIn pLen st = .error e) (s : σ) :
    receiveLoopIn P body pIn pLen st s = .error e := by
  rw [receiveLoopIn]
  split
  · rename_i e' he'
    rw [h] at he'
    cases he'
    rfl
  · rename_i r hr
    rw [h] at hr
    cases hr

theorem receiveLoopIn_of_ok {pIn : List LircT} {pLen : Nat} {st : DecodeState}
    {r : Decoded} (h : decode P pIn pLen st = .ok r) (s : σ) :
    receiveLoopIn P body pIn pLen st s = (do
      let next ← afterCallIn body r s
      if 0 < r.pLen then receiveLoopIn P body r.pIn r.pLen next.1 next.2
      else return next) := by
  conv_lhs => rw [receiveLoopIn]
  split
  · rename_i e he
    rw [h] at he
    cases he
  · rename_i r' hr'
    rw [h] at hr'
    cases hr'
    simp only [dite_eq_ite]

theorem receiveLoopIn_zero (pIn : List LircT) (st : DecodeState) (s : σ) :
    receiveLoopIn P body pIn 0 st s = .ok (st, s) := by
  rw [receiveLoopIn_of_ok P body (decode_zero P pIn st)]
  rfl

/-- One word is consumed and the loop goes on as if the block started after it,
however long the rest is. -/
theorem receiveLoopIn_cons (data : LircT) (rest : List LircT) (n : Nat)
    (st : DecodeState) (s : σ) :
    receiveLoopIn P body (data :: rest) (n + 4) st s = (do
      let now ← wordStepIn P body (st, s) data
      receiveLoopIn P body rest n now.1 now.2) := by
  cases hend : P.endOfFrame (isPulse data) (lenght data) with
  | false =>
      -- The call runs on into the rest of the block.
      have hcall := decode_cons_data hend rest n st
      have hstep : wordStepIn P body (st, s) data = .ok (P.deal data st, s) :=
        if_neg (by rw [hend]; exact Bool.false_ne_true)
      rw [hstep, ok_bind]
      cases hrest : decode P rest n (P.deal data st) with
      | error e =>
          rw [receiveLoopIn_of_error P body (hcall.trans hrest),
            receiveLoopIn_of_error P body hrest]
      | ok r =>
          rw [receiveLoopIn_of_ok P body (hcall.trans hrest),
            receiveLoopIn_of_ok P body hrest]
  | true =>
      -- The call returns; the loop calls again unless nothing is left.
      have hafter : afterCallIn body ⟨if 0 < st.idx then 1 else 0, rest, n, st⟩ s =
          wordStepIn P body (st, s) data := by
        rw [wordStepIn, if_pos hend]
        by_cases hidx : 0 < st.idx <;> simp [afterCallIn, hidx]
      rw [receiveLoopIn_of_ok P body (decode_cons_end hend rest n st), hafter]
      rcases Nat.eq_zero_or_pos n with hzero | hpos
      · subst hzero
        simp only [receiveLoopIn_zero]
        rfl
      · simp only [if_pos hpos]

/-- A byte count that is not a multiple of four takes the loop past the last whole
word, unless its body faults before. -/
theorem receiveLoopIn_unaligned (ws : List LircT) {n : Nat} (hlong : 4 * ws.length < n)
    (st : DecodeState) (s : σ) : ∃ e, receiveLoopIn P body ws n st s = .error e := by
  induction ws generalizing n st s with
  | nil =>
      obtain ⟨m, rfl⟩ : ∃ m, n = m + 1 := ⟨n - 1, by omega⟩
      exact ⟨_, receiveLoopIn_of_error P body (decode_nil P m st) s⟩
  | cons data rest ih =>
      rw [List.length_cons] at hlong
      obtain ⟨m, rfl⟩ : ∃ m, n = m + 4 := ⟨n - 4, by omega⟩
      rw [receiveLoopIn_cons]
      cases wordStepIn P body (st, s) data with
      | error e => exact ⟨e, rfl⟩
      | ok now => exact ih (by omega) now.1 now.2

/-- On word-aligned input the loop does the steps of its words, one after
another. -/
theorem receiveLoopIn_eq_foldlM (ws : List LircT) (st : DecodeState) (s : σ) :
    receiveLoopIn P body ws (4 * ws.length) st s = ws.foldlM (wordStepIn P body) (st, s) := by
  induction ws generalizing st s with
  | nil => exact receiveLoopIn_zero P body [] st s
  | cons data rest ih =>
      rw [List.length_cons, Nat.mul_add, receiveLoopIn_cons, List.foldlM_cons]
      simp only [ih]

/-- A body that only reads `BUFF` is run on the word machine's frames, in
order. -/
theorem foldlM_wordStepIn (body : σ → CString → Except Fault σ) (ws : List LircT)
    (st : DecodeState) (s : σ) :
    ws.foldlM (wordStepIn P fun s st => body s st.taken) (st, s) =
      ((P.wordMachine.run st ws).2.foldlM body s).map ((P.wordMachine.run st ws).1, ·) := by
  induction ws generalizing st s with
  | nil => rfl
  | cons data rest ih =>
      have hstep : wordStepIn P (fun s st => body s st.taken) (st, s) data =
          ((P.wordMachine.step st data).2.foldlM body s).map
            ((P.wordMachine.step st data).1, ·) := by
        cases hend : P.endOfFrame (isPulse data) (lenght data) with
        | false =>
            rw [Protocol.step_data hend, wordStepIn, hend]
            rfl
        | true =>
            rw [Protocol.step_end hend, wordStepIn, if_pos hend]
            by_cases hidx : 0 < st.idx
            · rw [if_pos hidx, if_pos hidx, List.foldlM_cons]
              cases body s st.taken with
              | error e => rfl
              | ok s' => rfl
            · rw [if_neg hidx, if_neg hidx]
              rfl
      rw [List.foldlM_cons, hstep, Transducer.run_cons, List.foldlM_append]
      cases (P.wordMachine.step st data).2.foldlM body s with
      | error e => rfl
      | ok s' => exact ih _ s'

/-- On word-aligned input such a loop is its body on the frames of the word
machine. -/
theorem receiveLoopIn_eq_run (body : σ → CString → Except Fault σ) (ws : List LircT)
    (st : DecodeState) (s : σ) :
    receiveLoopIn P (fun s st => body s st.taken) ws (4 * ws.length) st s =
      ((P.wordMachine.run st ws).2.foldlM body s).map ((P.wordMachine.run st ws).1, ·) := by
  rw [receiveLoopIn_eq_foldlM, foldlM_wordStepIn]

end ReceiveLoopIn

section ReceiveLoop

variable {σ : Type} (P : Protocol) (body : σ → DecodeState → σ)

/-- The state after a call. -/
def afterCall (r : Decoded) (s : σ) : DecodeState × σ :=
  if r.ret = 1 then (decodeReset r.state, body s r.state) else (r.state, s)

theorem afterCallIn_ok (r : Decoded) (s : σ) :
    afterCallIn (fun s st => .ok (body s st)) r s = .ok (afterCall body r s) := by
  rw [afterCallIn, afterCall]
  split <;> rfl

theorem wordStepIn_ok (now : DecodeState × σ) (data : LircT) :
    wordStepIn P (fun s st => .ok (body s st)) now data = .ok (wordStep P body now data) := by
  rw [wordStepIn, wordStep]
  split
  · split <;> rfl
  · rfl

/-- A body that cannot fault is one that never does. -/
theorem receiveLoop_eq_receiveLoopIn (pIn : List LircT) (pLen : Nat) (st : DecodeState)
    (s : σ) :
    receiveLoop P body pIn pLen st s =
      receiveLoopIn P (fun s st => .ok (body s st)) pIn pLen st s := by
  fun_induction receiveLoop P body pIn pLen st s with
  | case1 pIn pLen st s e hcall => rw [receiveLoopIn_of_error P _ hcall]
  | case2 pIn pLen st s r hcall next hleft ih =>
      rw [receiveLoopIn_of_ok P _ hcall, afterCallIn_ok, ok_bind, if_pos hleft]
      exact ih
  | case3 pIn pLen st s r hcall next hleft =>
      rw [receiveLoopIn_of_ok P _ hcall, afterCallIn_ok, ok_bind, if_neg hleft]
      rfl

theorem receiveLoop_of_error {pIn : List LircT} {pLen : Nat} {st : DecodeState}
    {e : Fault} (h : decode P pIn pLen st = .error e) (s : σ) :
    receiveLoop P body pIn pLen st s = .error e := by
  rw [receiveLoop_eq_receiveLoopIn, receiveLoopIn_of_error P _ h]

theorem receiveLoop_of_ok {pIn : List LircT} {pLen : Nat} {st : DecodeState}
    {r : Decoded} (h : decode P pIn pLen st = .ok r) (s : σ) :
    receiveLoop P body pIn pLen st s =
      if 0 < r.pLen then
        receiveLoop P body r.pIn r.pLen (afterCall body r s).1 (afterCall body r s).2
      else .ok (afterCall body r s) := by
  rw [receiveLoop_eq_receiveLoopIn, receiveLoop_eq_receiveLoopIn, receiveLoopIn_of_ok P _ h,
    afterCallIn_ok, ok_bind, pure_eq_ok]

theorem receiveLoop_cons (data : LircT) (rest : List LircT) (n : Nat)
    (st : DecodeState) (s : σ) :
    receiveLoop P body (data :: rest) (n + 4) st s =
      receiveLoop P body rest n (wordStep P body (st, s) data).1
        (wordStep P body (st, s) data).2 := by
  rw [receiveLoop_eq_receiveLoopIn, receiveLoop_eq_receiveLoopIn, receiveLoopIn_cons,
    wordStepIn_ok, ok_bind]

/-- On word-aligned input the receive loop returns and has done the steps of
its words, one after another. -/
theorem receiveLoop_eq_foldl (ws : List LircT) (st : DecodeState) (s : σ) :
    receiveLoop P body ws (4 * ws.length) st s =
      .ok (ws.foldl (wordStep P body) (st, s)) := by
  have hstep : wordStepIn P (fun s st => .ok (body s st)) =
      fun now data => pure (wordStep P body now data) := by
    funext now data
    exact wordStepIn_ok P body now data
  rw [receiveLoop_eq_receiveLoopIn, receiveLoopIn_eq_foldlM, hstep, List.foldlM_pure, pure_eq_ok]

/-- A byte count that is not a multiple of four takes the loop past the last
whole word, whatever the words and the state are. -/
theorem receiveLoop_unaligned (ws : List LircT) {n : Nat}
    (hlong : 4 * ws.length < n) (st : DecodeState) (s : σ) :
    receiveLoop P body ws n st s = .error .readOutside := by
  induction ws generalizing n st s with
  | nil =>
      obtain ⟨m, rfl⟩ : ∃ m, n = m + 1 := ⟨n - 1, by omega⟩
      exact receiveLoop_of_error P body (decode_nil P m st) s
  | cons data rest ih =>
      rw [List.length_cons] at hlong
      obtain ⟨m, rfl⟩ : ∃ m, n = m + 4 := ⟨n - 4, by omega⟩
      rw [receiveLoop_cons]
      exact ih (by omega) _ _

/-- A body that only reads `BUFF` sees the word machine's frames, in order. -/
theorem foldl_wordStep (body : σ → CString → σ) (ws : List LircT) (st : DecodeState)
    (s : σ) :
    ws.foldl (wordStep P fun s st => body s st.taken) (st, s) =
      ((P.wordMachine.run st ws).1, (P.wordMachine.run st ws).2.foldl body s) := by
  have hrun := receiveLoopIn_eq_run P (fun s frame => .ok (body s frame)) ws st s
  have hframes : (P.wordMachine.run st ws).2.foldlM
      (fun s frame => (.ok (body s frame) : Except Fault σ)) s =
        .ok ((P.wordMachine.run st ws).2.foldl body s) := List.foldlM_pure
  rw [← receiveLoop_eq_receiveLoopIn, receiveLoop_eq_foldl, hframes] at hrun
  exact Except.ok.inj hrun

/-- On word-aligned input such a receive loop is the word machine. -/
theorem receiveLoop_eq_run (body : σ → CString → σ) (ws : List LircT)
    (st : DecodeState) (s : σ) :
    receiveLoop P (fun s st => body s st.taken) ws (4 * ws.length) st s =
      .ok ((P.wordMachine.run st ws).1, (P.wordMachine.run st ws).2.foldl body s) := by
  rw [receiveLoop_eq_foldl, foldl_wordStep]

end ReceiveLoop

/-! ## The two protocols -/

/-- `NEC_TS`: minimal space that separates frames. -/
def necTS : Nat := 2500
/-- `NEC_TD`: between T and 3T. -/
def necTD : Nat := 560 + (1680 - 560) / 2
/-- `UNKN0_TS`: minimal space that separates frames. -/
def unkn0TS : Nat := 10000
/-- `UNKN0_TD`. -/
def unkn0TD : Nat := 800

/-- NEC: any word longer than `NEC_TS`, pulse or space, ends a frame. -/
def nec : Protocol where
  endOfFrame := fun _ lenght => decide (lenght > necTS)
  td := necTD

/-- UNKN0: only a space longer than `UNKN0_TS` does. -/
def unkn0 : Protocol where
  endOfFrame := fun isPulse lenght => !isPulse && decide (lenght > unkn0TS)
  td := unkn0TD

/-- `nec_decode`. -/
def necDecode : List LircT → Nat → DecodeState → Except Fault Decoded := decode nec
/-- `nec_decode_reset`. -/
def necDecodeReset : DecodeState → DecodeState := decodeReset
/-- `unkn0_decode`. -/
def unkn0Decode : List LircT → Nat → DecodeState → Except Fault Decoded := decode unkn0
/-- `unkn0_decode_reset`. -/
def unkn0DecodeReset : DecodeState → DecodeState := decodeReset

end IrBridge.Codec
