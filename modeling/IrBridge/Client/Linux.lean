/-
  Client/Linux.lean --- the Linux client's socket branch.

  The client reads up to `BUF_SIZE` bytes from the bridge and runs the receive
  loop over them.  A frame of 39 bits is complemented and shown as a weight;
  this receiver does not look at the check value.
-/
import IrBridge.Codec.Receive
import IrBridge.Scale.Figure

set_option autoImplicit false

namespace IrBridge.Client

open IrBridge.Codec
open IrBridge.Platform
open IrBridge.Scale

/-- What `recv` returned to `main`, when there was something: between 1 and
`BUF_SIZE` bytes. -/
structure Recv where
  bytes : List Byte
  nonempty : 1 ≤ bytes.length
  fits : bytes.length ≤ bufSize

/-- The body of the loop.  `shown` are the weights printed so far. -/
def linuxFrame (shown : List Rat) (st : DecodeState) : List Rat :=
  let decoded := string2bytes st.taken
  if st.idx = 39 then
    match (decoded.out.getD []).map (~~~ ·) with
    | d0 :: _ :: d2 :: d3 :: _ =>
        if d0 = 0xAB#8 then shown ++ [tenths (d2.toNat <<< 8 ||| d3.toNat)] else shown
    | _ => shown
  else shown

/-- The socket branch: `size_t len = read_server(sock, buffer)` and the loop. -/
def linuxReceive (dm : DataModel) (buffer : Recv) (now : DecodeState × List Rat) :
    Except Fault (DecodeState × List Rat) :=
  receiveLoop unkn0 linuxFrame (wordsOf buffer.bytes) (toSize dm buffer.bytes.length)
    now.1 now.2

end IrBridge.Client
