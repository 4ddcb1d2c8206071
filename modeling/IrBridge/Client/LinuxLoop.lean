/-
  Client/LinuxLoop.lean --- the loop of the Linux client.

  The client waits for the standard input and for the connection.  Of a line that
  was typed only the last character counts: it sends one of three frames, or ends
  the program.  The variable for it is set in the loop that reads the line, and by
  nothing else, so that an empty line is no command but a use of a variable without
  a value.  So is a standard input that is at its end.  The connection is read when
  nothing was typed.

  The first two frames are those of the lamp's switch on the Android client, and
  the third one is the figure that client makes of 88.3 kg.
-/
import IrBridge.Client.CreateFigure
import IrBridge.Client.Display
import IrBridge.Client.Safety
import IrBridge.Codec.SelfTest
import IrBridge.Foundation.Transition
import IrBridge.Scale.MixedTraffic

set_option autoImplicit false

namespace IrBridge.Client

open IrBridge.Foundation
open IrBridge.Codec
open IrBridge.Platform
open IrBridge.Scale

/-! ## The loop -/

/-- Where `main` is, once it is connected. -/
inductive LinuxPhase where
  /-- in the loop -/
  | looping
  /-- out of the loop, `proper end` -/
  | ended
  /-- `exit(errno)` -/
  | exited (errno : Int)
  /-- by `SIGPIPE` -/
  | killed
  | crashed (fault : Fault)
  deriving DecidableEq

/-- What `select` returns, and for which of the two descriptors. -/
inductive LinuxSelect where
  | failed (errno : Int)
  | ready (stdin sock : Bool)
  deriving DecidableEq

/-- What the calls of an iteration return. -/
structure LinuxRound where
  select : LinuxSelect
  /-- the characters that `read` can hand out before it returns 0, maybe of several
  lines -/
  typed : List Char
  /-- a `send` raises `SIGPIPE` -/
  broken : Bool
  /-- what `recv` returned, unless the connection is gone -/
  received : Option Recv

/-- The decoder, the weights printed and what was handed to `send`. -/
structure LinuxClient where
  decoder : DecodeState
  printed : List Rat
  sent : List (List Byte)
  phase : LinuxPhase

/-- `while ((read(0, &t, 1)>0) && t!='\n') c=t;`, on what there is to read and what
`c` holds, if it was set. -/
def keepLast : List Char → Option Char → Option Char
  | [], c => c
  | t :: rest, c => if t = '\n' then c else keepLast rest (some t)

/-- `ir`, of which `nir` bytes are sent, for the `nbbits` first bits of `TEST`. -/
def testFrame (enc : CString → Except Fault Encoded) (test : List Byte) (nbbits : Int) :
    Except Fault (List Byte) := do
  match ← bytes2string test nbbits with
  | none => .error .readOutside
  | some bits =>
      let ir ← enc bits
      return (bytesOf ((ir.out.getD []).map (·.getD 0#32))).take ir.size

namespace LinuxClient

/-- The client when it enters the loop. -/
def start : LinuxClient := ⟨DecodeState.start, [], [], .looping⟩

/-- `write_server`, which hands the frame to `send`. -/
def send (broken : Bool) (s : LinuxClient) : Except Fault (List Byte) → LinuxClient
  | .ok frame =>
      { s with sent := s.sent ++ [frame], phase := if broken then .killed else s.phase }
  | .error fault => { s with phase := .crashed fault }

/-- `switch(c)`.  All that is not a command gets the help. -/
def switch (dm : DataModel) (broken : Bool) (c : Char) (s : LinuxClient) : LinuxClient :=
  if c = 'q' then { s with phase := .ended }
  else if c = '1' then
    s.send broken (testFrame (necEncode dm) [0x00#8, 0xF7#8, 0xC0#8, 0x3F#8] 32)
  else if c = '2' then
    s.send broken (testFrame (necEncode dm) [0x00#8, 0xF7#8, 0x40#8, 0xBF#8] 32)
  else if c = '3' then
    s.send broken (testFrame (unkn0Encode dm) [0x54#8, 0x7F#8, 0xFC#8, 0x8C#8, 0x5C#8] 39)
  else s

/-- Something was typed.  `char c,t;` leaves both without a value. -/
def stdinBranch (dm : DataModel) (round : LinuxRound) (s : LinuxClient) : LinuxClient :=
  match keepLast round.typed none with
  | none => { s with phase := .crashed .indeterminate }
  | some c => s.switch dm round.broken c

/-- The connection has something to say, or is gone. -/
def sockBranch (dm : DataModel) (received : Option Recv) (s : LinuxClient) : LinuxClient :=
  match received with
  | none => { s with phase := .ended }
  | some buffer =>
      match linuxReceive dm buffer (s.decoder, s.printed) with
      | .ok (decoder, printed) => { s with decoder := decoder, printed := printed }
      | .error fault => { s with phase := .crashed fault }

/-- One iteration. -/
def iterate (dm : DataModel) (round : LinuxRound) (s : LinuxClient) : LinuxClient :=
  match round.select with
  | .failed errno => { s with phase := .exited errno }
  | .ready stdin sock =>
      if stdin then s.stdinBranch dm round
      else if sock then s.sockBranch dm round.received
      else s

/-- An iteration of a client that is in its loop. -/
def Iterates (dm : DataModel) (s : LinuxClient) (round : LinuxRound) (s' : LinuxClient) : Prop :=
  s.phase = .looping ∧ s' = s.iterate dm round

end LinuxClient

/-! ## What an iteration means -/

/-- The commands that send something. -/
inductive Command where
  | lightOn
  | lightOff
  | figure
  deriving DecidableEq

/-- The command of a character. -/
def Command.ofChar? (c : Char) : Option Command :=
  if c = '1' then some .lightOn
  else if c = '2' then some .lightOff
  else if c = '3' then some .figure
  else none

/-- The encoder it uses. -/
def Command.sender : Command → Sender
  | .lightOn => .remote
  | .lightOff => .remote
  | .figure => .scale

/-- The bits it sends: the codes of a lamp, or the figure of 88.3. -/
def Command.string : Command → CString
  | .lightOn => testBits [0x00#8, 0xF7#8, 0xC0#8, 0x3F#8] 32
  | .lightOff => testBits [0x00#8, 0xF7#8, 0x40#8, 0xBF#8] 32
  | .figure => figureBits 883#32

/-- The bytes it sends. -/
def Command.frame (command : Command) : List Byte :=
  bytesOf (command.sender.wave.words command.string.chars)

/-- The last character of the line that was typed, unless the line is empty. -/
def LinuxRound.last (round : LinuxRound) : Option Char :=
  (round.typed.takeWhile (· ≠ '\n')).getLast?

/-- The command that was given in an iteration. -/
def LinuxRound.command (round : LinuxRound) : Option Command :=
  match round.select with
  | .ready true _ => round.last.bind Command.ofChar?
  | _ => none

/-- What was received in it; nothing is, while there is something typed. -/
def LinuxRound.block (round : LinuxRound) : Option Recv :=
  match round.select with
  | .ready false true => round.received
  | _ => none

/-- The client stays in its loop. -/
def LinuxRound.GoesOn (round : LinuxRound) : Prop :=
  match round.select with
  | .failed _ => False
  | .ready true _ => ∃ c, round.last = some c ∧ c ≠ 'q' ∧
      ((Command.ofChar? c).isSome → round.broken = false)
  | .ready false true => ∃ buffer, round.received = some buffer ∧ 4 ∣ buffer.bytes.length
  | .ready false false => True

/-- The weight of a frame, if the client prints one. -/
def printedWeight (frame : CString) : Option Rat :=
  (figure? (figureVerdict frame)).map Figure.weight

/-- A frame for the bits of an array. -/
theorem testFrame_eq (dm : DataModel) (W : Waveform) {test : List Byte} {n : Nat} (hpos : 0 < n)
    (hn : n ≤ 8 * test.length) (hfits : (4 * (2 * n + W.head.length + 1) : Int) ≤ intMax) :
    testFrame (encode dm W) test n = .ok (bytesOf (W.words (testBits test n).chars)) := by
  have hmax : intMax = 2147483647 := rfl
  have hlen := strlen_testBits hn
  have hencode := encode_ok dm W (s := testBits test n) (by omega) (by rw [hlen]; omega)
  have hsize : 4 * (2 * (testBits test n).strlen + W.head.length + 1) =
      (bytesOf (W.words (testBits test n).chars)).length := by
    rw [length_bytesOf, W.length_words, ← CString.strlen]
  rw [testFrame, bytes2string_eq_unpack hpos hn (by omega), ok_bind]
  dsimp only
  rw [← testBits, hencode, ok_bind, pure_eq_ok, Option.getD_some, map_getD_some, hsize,
    List.take_length]

/-- The loop keeps the last character of the line, if it has one. -/
theorem keepLast_eq (typed : List Char) (c : Option Char) :
    keepLast typed c = (typed.takeWhile (· ≠ '\n')).getLast?.or c := by
  induction typed generalizing c with
  | nil => rfl
  | cons t rest ih =>
      rw [keepLast]
      by_cases hend : t = '\n'
      · rw [if_pos hend, List.takeWhile_cons_of_neg (by simp [hend])]
        rfl
      · rw [if_neg hend, List.takeWhile_cons_of_pos (by simp [hend]), ih, List.getLast?_cons]
        cases (rest.takeWhile (· ≠ '\n')).getLast? with
        | none => rfl
        | some last => rfl

/-- The cases of the `switch`. -/
theorem switch_eq (dm : DataModel) (broken : Bool) (s : LinuxClient) {c : Char} (hc : c ≠ 'q') :
    s.switch dm broken c = match Command.ofChar? c with
      | none => s
      | some command => s.send broken (.ok command.frame) := by
  have hnec : ∀ test : List Byte, test.length = 4 →
      testFrame (necEncode dm) test 32 = .ok (bytesOf (necWave.words (testBits test 32).chars)) :=
    fun test hlen => testFrame_eq dm necWave (n := 32) (by decide) (by omega) (by decide)
  have hfigure : testFrame (unkn0Encode dm) [0x54#8, 0x7F#8, 0xFC#8, 0x8C#8, 0x5C#8] 39 =
      .ok (bytesOf (unkn0Wave.words (figureBits 883#32).chars)) :=
    testFrame_eq dm unkn0Wave (n := 39) (by decide) (by decide) (by decide)
  rw [LinuxClient.switch, if_neg hc, Command.ofChar?]
  by_cases hon : c = '1'
  · rw [if_pos hon, if_pos hon, hnec _ rfl]
    rfl
  · rw [if_neg hon, if_neg hon]
    by_cases hoff : c = '2'
    · rw [if_pos hoff, if_pos hoff, hnec _ rfl]
      rfl
    · rw [if_neg hoff, if_neg hoff]
      by_cases hthree : c = '3'
      · rw [if_pos hthree, if_pos hthree, hfigure]
        rfl
      · rw [if_neg hthree, if_neg hthree]

/-! ## The lamp's switch of the Android client -/

/-- `Java_com_jdodev_ircodec_IRcodec_NecEncode`. -/
def nativeNecEncode (dm : DataModel) : Option CString → Except Fault (Option (List Byte))
  | none => .ok none
  | some s => do
      let encoded ← necEncode dm s
      match encoded.out with
      | none => return some []
      | some block =>
          if encoded.size = 0 then return some []
          else return some (bytesOf (block.map (·.getD 0#32)))

/-- What `onClick` of `mToggleLedSwitch` hands to `mTCP.send`, if it is set. -/
def ledSwitch (dm : DataModel) (isChecked : Bool) : Except Fault (Option (List Byte)) := do
  let ledOn := [0x00#32, 0xF7#32, 0xC0#32, 0x3F#32]
  let ledOff := [0x00#32, 0xF7#32, 0x40#32, 0xBF#32]
  let bits ← nativeBytes2String (if !isChecked then ledOff else ledOn) 32
  nativeNecEncode dm bits

theorem nativeNecEncode_eq (dm : DataModel) {s : CString} (hne : s.strlen ≠ 0)
    (hfits : (4 * (2 * s.strlen + necWave.head.length + 1) : Int) ≤ intMax) :
    nativeNecEncode dm (some s) = .ok (some (bytesOf (necWave.words s.chars))) := by
  rw [nativeNecEncode, necEncode, encode_ok dm necWave hne hfits, ok_bind]
  dsimp only
  rw [if_neg (by omega), map_getD_some, pure_eq_ok]

/-- It sends the frames that the Linux client sends for `1` and `2`. -/
theorem ledSwitch_eq (dm : DataModel) (isChecked : Bool) :
    ledSwitch dm isChecked =
      .ok (some (Command.frame (if isChecked then .lightOn else .lightOff))) := by
  have hbits : ∀ test : List (BitVec 32), test.length = 4 →
      nativeBytes2String test 32 = .ok (some (testBits (test.map (BitVec.setWidth 8)) 32)) := by
    intro test hlen
    rw [nativeBytes2String, if_neg (by omega)]
    exact bytes2string_eq_unpack (n := 32) (by decide) (by rw [List.length_map]; omega) (by decide)
  have hencode : ∀ test : List Byte, test.length = 4 →
      nativeNecEncode dm (some (testBits test 32)) =
        .ok (some (bytesOf (necWave.words (testBits test 32).chars))) := by
    intro test hlen
    have hstrlen : (testBits test 32).strlen = 32 := strlen_testBits (by omega)
    exact nativeNecEncode_eq dm (by omega) (by rw [hstrlen]; decide)
  cases isChecked with
  | true =>
      show nativeBytes2String [0x00#32, 0xF7#32, 0xC0#32, 0x3F#32] 32 >>= nativeNecEncode dm = _
      rw [hbits _ rfl, ok_bind, hencode _ rfl]
      rfl
  | false =>
      show nativeBytes2String [0x00#32, 0xF7#32, 0x40#32, 0xBF#32] 32 >>= nativeNecEncode dm = _
      rw [hbits _ rfl, ok_bind, hencode _ rfl]
      rfl

/-! ## One iteration -/

/-- What is left of the receive loop. -/
theorem sockBranch_ok {dm : DataModel} {s : LinuxClient} {buffer : Recv}
    {out : DecodeState × List Rat}
    (hout : linuxReceive dm buffer (s.decoder, s.printed) = .ok out) :
    s.sockBranch dm (some buffer) = { s with decoder := out.1, printed := out.2 } := by
  rw [LinuxClient.sockBranch.eq_def]
  dsimp only
  rw [hout]

/-- A word that is cut off crashes the client. -/
theorem sockBranch_cut (dm : DataModel) (s : LinuxClient) {buffer : Recv}
    (hcut : ¬ 4 ∣ buffer.bytes.length) :
    ∃ fault, s.sockBranch dm (some buffer) = { s with phase := .crashed fault } := by
  rw [← linuxReceive_ok_iff dm buffer s.decoder s.printed] at hcut
  cases hrun : linuxReceive dm buffer (s.decoder, s.printed) with
  | ok out => exact absurd ⟨out, hrun⟩ hcut
  | error fault =>
      refine ⟨fault, ?_⟩
      rw [LinuxClient.sockBranch.eq_def]
      dsimp only
      rw [hrun]

/-- Whole words are run through the decoder. -/
theorem sockBranch_whole (dm : DataModel) {s : LinuxClient} {bits : List Bool}
    (h : Holds s.decoder bits) {buffer : Recv} (hwhole : 4 ∣ buffer.bytes.length) :
    s.sockBranch dm (some buffer) =
      { s with
        decoder := (unkn0.wordMachine.run s.decoder (wordsOf buffer.bytes)).1
        printed := s.printed ++
          (unkn0.wordMachine.run s.decoder (wordsOf buffer.bytes)).2.filterMap printedWeight } := by
  have hrun := linuxReceive_eq_run dm h s.printed hwhole
  rw [foldl_linuxTaken] at hrun
  exact sockBranch_ok hrun

/-- Nothing else changes. -/
theorem sockBranch_keeps (dm : DataModel) (s : LinuxClient) {buffer : Recv}
    (hwhole : 4 ∣ buffer.bytes.length) :
    (s.sockBranch dm (some buffer)).sent = s.sent ∧
      (s.sockBranch dm (some buffer)).phase = s.phase := by
  obtain ⟨out, hout⟩ := (linuxReceive_ok_iff dm buffer s.decoder s.printed).mpr hwhole
  rw [sockBranch_ok hout]
  exact ⟨rfl, rfl⟩

/-- What an iteration can do. -/
inductive LinuxDoes (dm : DataModel) (round : LinuxRound) (s : LinuxClient) :
    LinuxClient → Prop where
  /-- it is the last one -/
  | ends {phase : LinuxPhase} : phase ≠ .looping → round.command = none →
      round.block = none → ¬ round.GoesOn → LinuxDoes dm round s { s with phase := phase }
  /-- a line was typed, or there was nothing to do -/
  | obeys : round.block = none → round.GoesOn →
      LinuxDoes dm round s
        { s with sent := s.sent ++ round.command.toList.map Command.frame }
  /-- a command was typed for a connection that is broken -/
  | dies : round.block = none → ¬ round.GoesOn →
      LinuxDoes dm round s
        { s with sent := s.sent ++ round.command.toList.map Command.frame, phase := .killed }
  | reads {buffer : Recv} : round.command = none → round.block = some buffer →
      4 ∣ buffer.bytes.length → round.GoesOn →
      LinuxDoes dm round s (s.sockBranch dm (some buffer))
  | crashes {buffer : Recv} {fault : Fault} : round.command = none →
      round.block = some buffer → ¬ round.GoesOn →
      LinuxDoes dm round s { s with phase := .crashed fault }

/-- When something was typed. -/
theorem stdinBranch_does (dm : DataModel) {round : LinuxRound} {sock : Bool}
    (hselect : round.select = .ready true sock) (s : LinuxClient) :
    LinuxDoes dm round s (s.stdinBranch dm round) := by
  have hblock : round.block = none := by rw [LinuxRound.block, hselect]
  have hcommand : round.command = round.last.bind Command.ofChar? := by
    rw [LinuxRound.command, hselect]
  have hgoes : round.GoesOn ↔ ∃ c, round.last = some c ∧ c ≠ 'q' ∧
      ((Command.ofChar? c).isSome → round.broken = false) := by
    rw [LinuxRound.GoesOn, hselect]
  have hkept : keepLast round.typed none = round.last := by
    rw [keepLast_eq, Option.or_none, LinuxRound.last]
  rw [LinuxClient.stdinBranch, hkept]
  cases hlast : round.last with
  | none =>
      refine .ends LinuxPhase.noConfusion (by rw [hcommand, hlast]; rfl) hblock fun hgoesOn => ?_
      obtain ⟨c, hc, _⟩ := hgoes.mp hgoesOn
      rw [hlast] at hc
      cases hc
  | some c =>
      rw [hlast, Option.bind_some] at hcommand
      simp only [hlast, Option.some.injEq, exists_eq_left'] at hgoes
      dsimp only
      by_cases hquit : c = 'q'
      · rw [LinuxClient.switch, if_pos hquit]
        refine .ends LinuxPhase.noConfusion ?_ hblock fun hgoesOn => (hgoes.mp hgoesOn).1 hquit
        rw [hcommand, hquit]
        rfl
      · rw [switch_eq dm round.broken s hquit]
        cases hof : Command.ofChar? c with
        | none =>
            have hobeys : LinuxDoes dm round s _ :=
              .obeys hblock (hgoes.mpr ⟨hquit, fun hsome => by rw [hof] at hsome; cases hsome⟩)
            rw [hcommand, hof, Option.toList_none, List.map_nil, List.append_nil] at hobeys
            exact hobeys
        | some command =>
            rw [hof] at hcommand hgoes
            cases hbroken : round.broken with
            | false =>
                have hobeys : LinuxDoes dm round s _ :=
                  .obeys hblock (hgoes.mpr ⟨hquit, fun _ => hbroken⟩)
                rw [hcommand] at hobeys
                exact hobeys
            | true =>
                have hdies : LinuxDoes dm round s _ := .dies hblock fun hgoesOn => by
                  have hwhole := (hgoes.mp hgoesOn).2 rfl
                  rw [hbroken] at hwhole
                  cases hwhole
                rw [hcommand] at hdies
                exact hdies

/-- When the connection has something to say. -/
theorem sockBranch_does (dm : DataModel) {round : LinuxRound}
    (hselect : round.select = .ready false true) (s : LinuxClient) :
    LinuxDoes dm round s (s.sockBranch dm round.received) := by
  have hcommand : round.command = none := by rw [LinuxRound.command, hselect]
  have hblock : round.block = round.received := by rw [LinuxRound.block, hselect]
  have hgoes : round.GoesOn ↔
      ∃ buffer, round.received = some buffer ∧ 4 ∣ buffer.bytes.length := by
    rw [LinuxRound.GoesOn, hselect]
  cases hreceived : round.received with
  | none =>
      refine .ends LinuxPhase.noConfusion hcommand (hblock.trans hreceived) fun hgoesOn => ?_
      obtain ⟨buffer, hbuffer, _⟩ := hgoes.mp hgoesOn
      rw [hreceived] at hbuffer
      cases hbuffer
  | some buffer =>
      by_cases hwhole : 4 ∣ buffer.bytes.length
      · exact .reads hcommand (hblock.trans hreceived) hwhole
          (hgoes.mpr ⟨buffer, hreceived, hwhole⟩)
      · obtain ⟨fault, hcrash⟩ := sockBranch_cut dm s hwhole
        rw [hcrash]
        refine .crashes hcommand (hblock.trans hreceived) fun hgoesOn => ?_
        obtain ⟨other, hother, hwords⟩ := hgoes.mp hgoesOn
        rw [hreceived] at hother
        obtain rfl := Option.some.inj hother
        exact hwhole hwords

theorem iterate_does (dm : DataModel) (round : LinuxRound) (s : LinuxClient) :
    LinuxDoes dm round s (s.iterate dm round) := by
  rw [LinuxClient.iterate]
  cases hselect : round.select with
  | failed errno =>
      refine .ends LinuxPhase.noConfusion ?_ ?_ ?_
      · rw [LinuxRound.command, hselect]
      · rw [LinuxRound.block, hselect]
      · rw [LinuxRound.GoesOn, hselect]
        exact id
  | ready stdin sock =>
      cases stdin with
      | true => exact stdinBranch_does dm hselect s
      | false =>
          cases sock with
          | true => exact sockBranch_does dm hselect s
          | false =>
              have hcommand : round.command = none := by rw [LinuxRound.command, hselect]
              have hblock : round.block = none := by rw [LinuxRound.block, hselect]
              have hgoes : round.GoesOn := by
                rw [LinuxRound.GoesOn, hselect]
                trivial
              have hidle : LinuxDoes dm round s _ := .obeys hblock hgoes
              rw [hcommand, Option.toList_none, List.map_nil, List.append_nil] at hidle
              exact hidle

section Iteration

variable {dm : DataModel} {round : LinuxRound} {s s' : LinuxClient}

/-- What is sent. -/
theorem LinuxDoes.sent_eq (h : LinuxDoes dm round s s') :
    s'.sent = s.sent ++ round.command.toList.map Command.frame := by
  cases h with
  | ends _ hcommand _ _ =>
      rw [hcommand]
      exact (List.append_nil _).symm
  | obeys _ _ => rfl
  | dies _ _ => rfl
  | reads hcommand _ hwhole _ =>
      rw [(sockBranch_keeps dm s hwhole).1, hcommand]
      exact (List.append_nil _).symm
  | crashes hcommand _ _ =>
      rw [hcommand]
      exact (List.append_nil _).symm

/-- It is the last iteration unless the client goes on. -/
theorem LinuxDoes.looping_iff (h : LinuxDoes dm round s s') (hlooping : s.phase = .looping) :
    s'.phase = .looping ↔ round.GoesOn := by
  cases h with
  | ends hphase _ _ hgoes => exact iff_of_false hphase hgoes
  | obeys _ hgoes => exact iff_of_true hlooping hgoes
  | dies _ hgoes => exact iff_of_false LinuxPhase.noConfusion hgoes
  | reads _ _ hwhole hgoes =>
      rw [(sockBranch_keeps dm s hwhole).2]
      exact iff_of_true hlooping hgoes
  | crashes _ _ hgoes => exact iff_of_false LinuxPhase.noConfusion hgoes

/-- A client that has not crashed was given whole words. -/
theorem LinuxDoes.whole (h : LinuxDoes dm round s s')
    (hsafe : ∀ fault, s'.phase ≠ .crashed fault) :
    ∀ buffer ∈ round.block, 4 ∣ buffer.bytes.length := by
  intro other hother
  cases h with
  | ends _ _ hblock _ =>
      rw [hblock] at hother
      cases hother
  | obeys hblock _ =>
      rw [hblock] at hother
      cases hother
  | dies hblock _ =>
      rw [hblock] at hother
      cases hother
  | reads _ hblock hwhole _ =>
      rw [hblock] at hother
      obtain rfl := Option.some.inj hother
      exact hwhole
  | crashes _ _ _ => exact absurd rfl (hsafe _)

end Iteration

/-- The decoder and the weights after some words. -/
structure Printing (words : List LircT) (s : LinuxClient) : Prop where
  decoder_eq : s.decoder = (unkn0.wordMachine.run DecodeState.start words).1
  printed_eq : s.printed =
    (unkn0.wordMachine.run DecodeState.start words).2.filterMap printedWeight

/-- What is received in an iteration that does not crash. -/
theorem Printing.iterate {dm : DataModel} {round : LinuxRound} {words : List LircT}
    {s s' : LinuxClient} (h : Printing words s) (hdoes : LinuxDoes dm round s s')
    (hsafe : ∀ fault, s'.phase ≠ .crashed fault) :
    Printing (words ++ recvWords round.block.toList) s' := by
  have hnothing : round.block = none → words ++ recvWords round.block.toList = words := by
    intro hblock
    rw [hblock]
    exact List.append_nil words
  cases hdoes with
  | ends _ _ hblock _ =>
      rw [hnothing hblock]
      exact ⟨h.decoder_eq, h.printed_eq⟩
  | obeys hblock _ =>
      rw [hnothing hblock]
      exact ⟨h.decoder_eq, h.printed_eq⟩
  | dies hblock _ =>
      rw [hnothing hblock]
      exact ⟨h.decoder_eq, h.printed_eq⟩
  | @reads buffer _ hblock hwhole _ =>
      have hholds : Holds s.decoder _ := h.decoder_eq ▸ (run_refines unkn0 holds_start words).1
      have hwords : recvWords (some buffer).toList = wordsOf buffer.bytes := List.append_nil _
      rw [sockBranch_whole dm hholds hwhole, hblock, hwords]
      constructor
      · dsimp only
        rw [Transducer.run_append, h.decoder_eq]
      · dsimp only
        rw [Transducer.run_append, List.filterMap_append, h.decoder_eq, h.printed_eq]
  | crashes _ _ _ => exact absurd rfl (hsafe _)

/-! ## Whole runs -/

/-- After a run: what was sent, and, unless it crashed, what was printed. -/
structure LinuxRun (rounds : List LinuxRound) (s : LinuxClient) : Prop where
  sent_eq : s.sent = (rounds.filterMap LinuxRound.command).map Command.frame
  printing : (∀ fault, s.phase ≠ .crashed fault) →
    Printing (recvWords (rounds.filterMap LinuxRound.block)) s
  whole : (∀ fault, s.phase ≠ .crashed fault) →
    ∀ buffer ∈ rounds.filterMap LinuxRound.block, 4 ∣ buffer.bytes.length

theorem linux_run (dm : DataModel) {rounds : List LinuxRound} {s : LinuxClient}
    (hrun : Steps (LinuxClient.Iterates dm) LinuxClient.start rounds s) : LinuxRun rounds s := by
  refine hrun.invariant LinuxRun ⟨rfl, fun _ => ⟨rfl, rfl⟩, fun _ => by simp⟩ ?_
  intro rounds s round next hinv hstep
  obtain ⟨hlooping, rfl⟩ := hstep
  have hdoes := iterate_does dm round s
  have hlast : ∀ {β : Type} (f : LinuxRound → Option β),
      (rounds ++ [round]).filterMap f = rounds.filterMap f ++ (f round).toList := by
    intro β f
    rw [List.filterMap_append]
    cases hf : f round with
    | none => rw [List.filterMap_cons_none hf]; rfl
    | some b => rw [List.filterMap_cons_some hf]; rfl
  have hbefore : ∀ fault, s.phase ≠ .crashed fault := by
    intro fault hcrash
    rw [hlooping] at hcrash
    cases hcrash
  refine ⟨?_, fun hsafe => ?_, fun hsafe => ?_⟩
  · rw [hdoes.sent_eq, hinv.sent_eq, hlast, List.map_append]
  · rw [hlast, recvWords, List.flatMap_append]
    exact (hinv.printing hbefore).iterate hdoes hsafe
  · rw [hlast]
    intro buffer hbuffer
    rcases List.mem_append.mp hbuffer with hbuffer | hbuffer
    · exact hinv.whole hbefore buffer hbuffer
    · exact hdoes.whole hsafe buffer (Option.mem_toList.mp hbuffer)

/-- The client is in its loop after some iterations if and only if it goes on in
each of them. -/
theorem linux_looping_iff (dm : DataModel) (rounds : List LinuxRound) :
    (∃ s, Steps (LinuxClient.Iterates dm) LinuxClient.start rounds s ∧ s.phase = .looping) ↔
      ∀ round ∈ rounds, round.GoesOn := by
  induction rounds using List.reverseRecOn with
  | nil => exact iff_of_true ⟨LinuxClient.start, .refl, rfl⟩ (by simp)
  | append_singleton rounds round ih =>
      rw [List.forall_mem_append, List.forall_mem_singleton, ← ih]
      constructor
      · rintro ⟨s, hrun, hlooping⟩
        obtain ⟨before, hbefore, hin, rfl⟩ := hrun.snoc_inv
        exact ⟨⟨before, hbefore, hin⟩, ((iterate_does dm round before).looping_iff hin).mp hlooping⟩
      · rintro ⟨⟨before, hbefore, hin⟩, hgoes⟩
        exact ⟨_, hbefore.snoc ⟨hin, rfl⟩,
          ((iterate_does dm round before).looping_iff hin).mpr hgoes⟩

/-- For every sequence of iterations: the client is in its loop after them if and
only if no `select` failed, no line was empty or ended in `q`, no command was typed
for a broken connection, and whenever it read the connection there were whole
words.  What it has handed to `send` are the frames of the commands that were typed,
in order; what it has printed, unless it crashed, are the weights of the frames in
what it read, however that was cut and whatever was typed in between. -/
theorem linux_loop (dm : DataModel) (rounds : List LinuxRound) :
    ((∃ s, Steps (LinuxClient.Iterates dm) LinuxClient.start rounds s ∧ s.phase = .looping) ↔
        ∀ round ∈ rounds, round.GoesOn) ∧
      ∀ s, Steps (LinuxClient.Iterates dm) LinuxClient.start rounds s →
        s.sent = (rounds.filterMap LinuxRound.command).map Command.frame ∧
        ((∀ fault, s.phase ≠ .crashed fault) → ∃ frames,
          Takes unkn0 DecodeState.start (recvWords (rounds.filterMap LinuxRound.block)) frames ∧
          s.printed = frames.filterMap printedWeight) := by
  refine ⟨linux_looping_iff dm rounds, fun s hrun => ?_⟩
  have hinv := linux_run dm hrun
  exact ⟨hinv.sent_eq, fun hsafe =>
    ⟨_, ⟨_, receiveFrames_eq_run unkn0 DecodeState.start _⟩, (hinv.printing hsafe).printed_eq⟩⟩

end IrBridge.Client
