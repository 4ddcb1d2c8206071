/-
  Client/Safety.lean --- when the receive loops stay inside their bytes.

  All three receivers hand the loop a byte count and count it down by four until
  it is zero.  Each stays inside the bytes it received, and ends, exactly when
  the count is a multiple of four.  The daemon also hands over the result of a
  failed read.
-/
import IrBridge.Client.Android
import IrBridge.Client.Linux
import IrBridge.Scale.Starfrit

set_option autoImplicit false

namespace IrBridge.Client

open IrBridge.Codec
open IrBridge.Platform
open IrBridge.Scale

/-- The Linux client. -/
theorem linuxReceive_ok_iff (dm : DataModel) (buffer : Recv) (st : DecodeState)
    (shown : List Rat) :
    (∃ out, linuxReceive dm buffer (st, shown) = .ok out) ↔ 4 ∣ buffer.bytes.length := by
  have hfits := buffer.fits
  have hsize : toSize dm buffer.bytes.length = buffer.bytes.length := by
    rw [bufSize] at hfits
    rw [toSize_of_range dm (by omega) (by omega), Int.toNat_natCast]
  rw [linuxReceive, hsize]
  exact receiveLoop_ok_iff unkn0 linuxFrame buffer.bytes st shown

/-- The Android client. -/
theorem onDataReceived_ok_iff (dm : DataModel) (received : Received) (st : DecodeState)
    (shown : List Displayed) :
    (∃ out, onDataReceived dm received (st, shown) = .ok out) ↔ 4 ∣ received.sz := by
  have hlen : (received.data.take received.sz).length = received.sz :=
    List.length_take_of_le received.fits
  have hloop := receiveLoop_ok_iff unkn0 (fun shown st => figureFrame shown st.taken)
    (received.data.take received.sz) st shown
  rw [hlen] at hloop
  rw [onDataReceived_eq_receiveLoop]
  exact hloop

/-- A length that came from -1 is not backed by any bytes. -/
theorem toSize_minusOne_pos (dm : DataModel) : 0 < toSize dm (-1) := by
  cases dm
  · simp only [toSize, DataModel.sizeBits]
    omega
  · simp only [toSize, DataModel.sizeBits]
    omega

/-- A failed read sends the daemon past its empty buffer. -/
theorem starfritRead_failed (dm : DataModel) (clock : Nat → Int) (st : DecodeState)
    (s : Starfrit) : starfritRead dm clock .failed (st, s) = .error .readOutside :=
  receiveLoop_unaligned unkn0 _ [] (toSize_minusOne_pos dm) st s

/-- The daemon, for every result of the read. -/
theorem starfritRead_ok_iff (dm : DataModel) (clock : Nat → Int) (c : ReadResult)
    (st : DecodeState) (s : Starfrit) :
    (∃ out, starfritRead dm clock c (st, s) = .ok out) ↔ 0 ≤ c.result ∧ 4 ∣ c.result := by
  cases c with
  | failed =>
      constructor
      · rintro ⟨out, hout⟩
        rw [starfritRead_failed] at hout
        cases hout
      · rintro ⟨hnonneg, _⟩
        exact absurd hnonneg (by decide)
  | got bytes hfits =>
      rw [bufSize] at hfits
      have hsize : toSize dm bytes.length = bytes.length := by
        rw [toSize_of_range dm (by omega) (by omega), Int.toNat_natCast]
      have hloop := receiveLoop_ok_iff unkn0 (fun s st => starfritFrame clock s st.taken)
        bytes st s
      rw [starfritRead, starfritProcess, ReadResult.bytes, ReadResult.result, hsize]
      refine hloop.trans ⟨fun hdvd => ⟨by omega, by omega⟩, fun h => by omega⟩

/-- For every byte count the callers can pass, every contents and every decoder
state: the loop reads only whole words inside the received bytes, keeps its
length from wrapping, and ends, exactly when the count is not negative and a
multiple of four. -/
theorem receive_loops_safe_iff (dm : DataModel) (clock : Nat → Int) (st : DecodeState)
    (buffer : Recv) (printed : List Rat) (received : Received) (shown : List Displayed)
    (c : ReadResult) (s : Starfrit) :
    ((∃ out, linuxReceive dm buffer (st, printed) = .ok out) ↔ 4 ∣ buffer.bytes.length) ∧
    ((∃ out, onDataReceived dm received (st, shown) = .ok out) ↔ 4 ∣ received.sz) ∧
    ((∃ out, starfritRead dm clock c (st, s) = .ok out) ↔ 0 ≤ c.result ∧ 4 ∣ c.result) :=
  ⟨linuxReceive_ok_iff dm buffer st printed, onDataReceived_ok_iff dm received st shown,
    starfritRead_ok_iff dm clock c st s⟩

/-- Five bytes from the socket, and a failed read of the device, from program
start: each loop goes past the bytes it was given. -/
theorem receive_loops_unsafe :
    (∃ buffer : Recv, buffer.bytes.length = 5 ∧
      linuxReceive .lp64 buffer (DecodeState.start, []) = .error .readOutside) ∧
    (∃ received : Received, received.sz = 5 ∧
      onDataReceived .ilp32 received (DecodeState.start, []) = .error .readOutside) ∧
    starfritRead .ilp32 (fun _ => 0) .failed (DecodeState.start, Starfrit.start) =
      .error .readOutside := by
  refine ⟨⟨⟨List.replicate 5 0#8, by decide, by decide⟩, rfl, ?_⟩,
    ⟨⟨List.replicate 5 0#8, 5, by decide, by decide⟩, rfl, ?_⟩,
    starfritRead_failed _ _ _ _⟩
  · rw [linuxReceive, toSize_of_range .lp64 (by simp) (by simp)]
    exact receiveLoop_unaligned _ _ _ (by decide) _ _
  · rw [onDataReceived_eq_receiveLoop]
    exact receiveLoop_unaligned _ _ _ (by decide) _ _

end IrBridge.Client
