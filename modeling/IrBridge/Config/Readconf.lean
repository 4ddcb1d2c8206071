/-
  Config/Readconf.lean --- `readconf`, the configuration file reader.

  The file is read with `fgets` in pieces of at most 255 characters.  A trimmed
  piece is copied to `line`, or appended while the piece before it goes on, and a
  finished line is split into a key and its arguments.  `line` holds 1024
  characters, and no copy into it is checked; the arguments of the four known keys
  are used without a test for null.

  `sayStep` is the loop without its buffers, on what the pieces say
  (`foldlM_readStep`).  Where the lines fit, it sets the finished lines one after
  another (`foldlM_sayStep`), and it gets to its end only where they fit
  (`fits_of_foldlM`).  The main result is the exact condition under which nothing
  goes wrong.
-/
import IrBridge.Config.SplitKey
import IrBridge.Foundation.Joining

set_option autoImplicit false

namespace IrBridge.Config

open IrBridge.Foundation
open IrBridge.Platform

/-! ## The library functions -/

/-- `fgets(fileline, size, file)`, call after call: each reads to the end of the
line, or until `size - 1` characters are read.  `read` is what the call in
progress has read. -/
def fgets (size : Nat) : List Char → List Char → List (List Char)
  | [], read => if read = [] then [] else [read]
  | c :: rest, read =>
      if c = '\n' ∨ read.length + 2 = size then (read ++ [c]) :: fgets size rest []
      else fgets size rest (read ++ [c])

/-- `isspace`. -/
def isSpace (c : Char) : Bool :=
  c == ' ' || c == '\t' || c == '\n' || c == '\x0b' || c == '\x0c' || c == '\r'

/-- The digits of a number and what they are worth. -/
def digits (s : List Char) : Int :=
  (s.takeWhile Char.isDigit).foldl (fun n c => 10 * n + ((c.toNat : Int) - 48)) 0

/-- `strtol(s, NULL, 10)`: a number that `long` does not hold becomes its largest
or smallest value. -/
def strtol (dm : DataModel) (s : List Char) : Int :=
  let value :=
    match s.dropWhile isSpace with
    | '-' :: rest => -digits rest
    | '+' :: rest => digits rest
    | rest => digits rest
  let limit : Int := (2 ^ (dm.sizeBits - 1) : Nat)
  max (-limit) (min (limit - 1) value)

/-- `atoi(s)`. -/
def atoi (dm : DataModel) (s : List Char) : Int := toInt (strtol dm s)

/-! ## The configuration -/

/-- `conf`. -/
structure Conf where
  port : Int
  led : Int
  starfrit : Int
  starfritArgs : List Char
  deriving DecidableEq

/-- The initialised globals. -/
def Conf.start : Conf := ⟨8000, 0, 0, []⟩

/-- What `readconf` must not do. -/
inductive ConfFault where
  /-- `trim` does not return -/
  | trim (fault : Fault)
  /-- a string is copied or appended past the end of `line` -/
  | lineOverflow
  /-- a string is copied past the end of `conf.starfrit_args` -/
  | argsOverflow
  /-- `atoi`, `strcmp` or `strcpy` on a null pointer -/
  | nullArgs
  deriving DecidableEq

/-- `sizeof(fileline)`. -/
def filelineSize : Nat := 256

/-- `sizeof(line)`. -/
def lineSize : Nat := 1024

/-- `sizeof(conf.starfrit_args)`. -/
def starfritArgsSize : Nat := 1024

/-- `"port"` -/
def keyPort : List Char := ['p', 'o', 'r', 't']
/-- `"starfrit"` -/
def keyStarfrit : List Char := ['s', 't', 'a', 'r', 'f', 'r', 'i', 't']
/-- `"starfrit_url"` -/
def keyStarfritUrl : List Char :=
  ['s', 't', 'a', 'r', 'f', 'r', 'i', 't', '_', 'u', 'r', 'l']
/-- `"led"` -/
def keyLed : List Char := ['l', 'e', 'd']

/-- `args`, where it is used. -/
def nonNull (args : Option (List Char)) : Except ConfFault (List Char) :=
  match args with
  | none => .error .nullArgs
  | some args => .ok args

/-- What is done with a key. -/
def setting (dm : DataModel) (conf : Conf) (key : List Char) (args : Option (List Char)) :
    Except ConfFault Conf :=
  if key = keyPort then do
    let args ← nonNull args
    return { conf with port := atoi dm args }
  else if key = keyStarfrit then do
    let args ← nonNull args
    return { conf with starfrit := if args = ['O', 'N'] then 1 else 0 }
  else if key = keyStarfritUrl then do
    let args ← nonNull args
    if args.length < starfritArgsSize then return { conf with starfritArgs := args }
    else .error .argsOverflow
  else if key = keyLed then do
    let args ← nonNull args
    return { conf with led := atoi dm args }
  else .ok conf

/-- The empty string. -/
def emptyString : CString := ⟨[], fun _ hc => absurd hc List.not_mem_nil⟩

/-- `line`, `isMultiline` and the configuration so far. -/
structure Reading where
  line : CString
  isMultiline : Bool
  conf : Conf

/-- The concatenation of two strings. -/
def concat (s t : CString) : CString where
  chars := s.chars ++ t.chars
  noNul := fun c hc => (List.mem_append.mp hc).elim (s.noNul c) (t.noNul c)

/-- `strcpy(line, s)`, with the concatenation in the place of `strcat`. -/
def toLine (s : CString) : Except ConfFault CString :=
  if s.strlen < lineSize then .ok s else .error .lineOverflow

/-- `get key`, and what follows, on a finished line that has been split. -/
def useParts (dm : DataModel) (conf : Conf) (parts : Split) : Except ConfFault Reading :=
  match parts.key with
  | none => .ok ⟨CString.ofBuffer parts.cells, false, conf⟩
  | some key => do
      let conf ← setting dm conf key.chars (parts.args.map CString.chars)
      return ⟨CString.ofBuffer parts.cells, false, conf⟩

/-- `concat multiline`, and what follows: a trimmed piece that is not empty, and
what `trim` stored in `tmp`. -/
def addPiece (dm : DataModel) (r : Reading) (piece : CString) (tmp : Bool) :
    Except ConfFault Reading := do
  let line ← toLine (if r.isMultiline then concat r.line piece else piece)
  if tmp then return { r with line := line, isMultiline := true }
  else useParts dm r.conf (splitKey line)

/-- The body of the loop, after `trim` has returned.  `tmp` is set whenever the
returned length is not 0. -/
def afterTrim (dm : DataModel) (r : Reading) :
    Except Fault Trimmed → Except ConfFault Reading
  | .error fault => .error (.trim fault)
  | .ok t => if t.ret = 0 then .ok r else addPiece dm r t.s (t.multiline = some true)

/-- The body of the loop, on what `fgets` has read. -/
def readStep (dm : DataModel) (r : Reading) (fileline : CString) : Except ConfFault Reading :=
  afterTrim dm r (trim dm fileline)

/-- `readconf`, with the contents of the file if there is one. -/
def readconf (dm : DataModel) (file : Option CString) : Except ConfFault Conf :=
  match file with
  | none => .ok Conf.start
  | some text => do
      let r ← ((fgets filelineSize text.chars []).map CString.ofBuffer).foldlM (readStep dm)
        ⟨emptyString, false, Conf.start⟩
      return r.conf

/-! ## What a file says -/

/-- What is left of a piece of the file, and whether its line goes on; nothing for
blanks and comments. -/
def pieceOf (fileline : List Char) : Option (List Char × Bool) :=
  if (documentedLine fileline).1 = [] then none else some (documentedLine fileline)

/-- The pieces `fgets` reads, as far as they say something. -/
def piecesOf (text : List Char) : List (List Char × Bool) :=
  (fgets filelineSize text []).filterMap pieceOf

/-- The finished lines. -/
def entriesOf (text : List Char) : List (List Char) :=
  (Joining.machine.run [] (piecesOf text)).2

/-- What a finished line sets. -/
def entrySetting (dm : DataModel) (conf : Conf) (entry : List Char) : Except ConfFault Conf :=
  if keyOf entry = [] then .ok conf
  else setting dm conf (keyOf entry) (if argsOf entry = [] then none else some (argsOf entry))

/-- Every line, the unfinished one included, fits `line`. -/
def LinesFit (text : List Char) : Prop :=
  ∀ line ∈ Joining.lines [] (piecesOf text), line.length < lineSize

instance (text : List Char) : Decidable (LinesFit text) :=
  inferInstanceAs (Decidable (∀ line ∈ Joining.lines [] (piecesOf text), line.length < lineSize))

/-- The keys that are used with their arguments. -/
def knownKeys : List (List Char) := [keyPort, keyStarfrit, keyStarfritUrl, keyLed]

/-- Every finished line whose first word is a known key has arguments. -/
def KeysHaveArgs (text : List Char) : Prop :=
  ∀ entry ∈ entriesOf text, keyOf entry ∈ knownKeys → argsOf entry ≠ []

/-! ## Pieces -/

/-- `fgets` stays within its buffer, and reads something with every call. -/
theorem fgets_spec (size : Nat) (text read : List Char)
    (hread : read.length + 1 < size) (hnul : ∀ c ∈ read ++ text, c ≠ '\x00') :
    ∀ fileline ∈ fgets size text read,
      fileline ≠ [] ∧ fileline.length < size ∧ ∀ c ∈ fileline, c ≠ '\x00' := by
  induction text generalizing read with
  | nil =>
      intro fileline hmem
      rw [fgets] at hmem
      split at hmem
      · exact absurd hmem List.not_mem_nil
      · rename_i hne
        obtain rfl := List.mem_singleton.mp hmem
        refine ⟨hne, by omega, fun c hc => hnul c (List.mem_append_left _ hc)⟩
  | cons c text ih =>
      have hnext : ∀ d ∈ read ++ [c], d ≠ '\x00' := by
        intro d hd
        apply hnul d
        rcases List.mem_append.mp hd with hd | hd
        · exact List.mem_append_left _ hd
        · rw [List.mem_singleton.mp hd]
          exact List.mem_append_right _ List.mem_cons_self
      have hrest : ∀ d ∈ text, d ≠ '\x00' :=
        fun d hd => hnul d (List.mem_append_right _ (List.mem_cons_of_mem _ hd))
      intro fileline hmem
      rw [fgets] at hmem
      split at hmem
      · rcases List.mem_cons.mp hmem with rfl | hmem
        · refine ⟨by simp, ?_, hnext⟩
          rw [List.length_append, List.length_singleton]
          exact hread
        · exact ih [] (by simp; omega) hrest fileline hmem
      · rename_i hroom
        refine ih (read ++ [c]) ?_ ?_ fileline hmem
        · rw [List.length_append, List.length_singleton]
          omega
        · intro d hd
          rcases List.mem_append.mp hd with hd | hd
          · exact hnext d hd
          · exact hrest d hd

/-! ## One turn of the loop -/

/-- What counts of the loop's variables: what it has of a line that goes on, and
the configuration. -/
def Reading.view (r : Reading) : List Char × Conf :=
  (if r.isMultiline then r.line.chars else [], r.conf)

/-- The loop without its buffers.  A piece is put behind what the line has so far,
and a finished line is set. -/
def sayStep (dm : DataModel) (s : List Char × Conf) (piece : List Char × Bool) :
    Except ConfFault (List Char × Conf) :=
  if (s.1 ++ piece.1).length < lineSize then
    if piece.2 then .ok (s.1 ++ piece.1, s.2)
    else do
      let conf ← entrySetting dm s.2 (s.1 ++ piece.1)
      return ([], conf)
  else .error .lineOverflow

theorem argsOf_length_le (entry : List Char) : (argsOf entry).length ≤ entry.length :=
  Nat.le_trans (List.dropWhile_sublist _).length_le
    (Nat.le_trans (List.dropWhile_sublist _).length_le (List.dropWhile_sublist _).length_le)

/-- A finished line is set, and the next one starts afresh. -/
theorem useParts_eq (dm : DataModel) (conf : Conf) {line : CString}
    (hfit : line.strlen < lineSize) :
    useParts dm conf (splitKey line) = do
      let conf ← entrySetting dm conf line.chars
      return ⟨CString.ofBuffer (splitKey line).cells, false, conf⟩ := by
  have hmax : intMax = 2147483647 := rfl
  have hint : (line.strlen : Int) ≤ intMax := by
    rw [lineSize] at hfit
    omega
  have hkey := splitKey_key hint
  have hargs := splitKey_args hint
  generalize splitKey line = parts at hkey hargs ⊢
  rw [useParts, entrySetting]
  by_cases hempty : keyOf line.chars = []
  · rw [if_pos hempty] at hkey ⊢
    rw [Option.map_eq_none_iff.mp hkey]
    rfl
  · rw [if_neg hempty] at hkey ⊢
    obtain ⟨key, hsome, hchars⟩ := Option.map_eq_some_iff.mp hkey
    rw [hsome, hargs, ← hchars]

section Turn

variable (dm : DataModel) {fileline : CString}

/-- What `trim` makes of a piece. -/
theorem trim_piece (hne : fileline.chars ≠ []) (hlen : fileline.strlen < filelineSize) :
    ∃ t, trim dm fileline = .ok t ∧ t.s.chars = (documentedLine fileline.chars).1 ∧
      t.ret = t.s.strlen ∧ t.multiline = some (documentedLine fileline.chars).2 := by
  have hmax : intMax = 2147483647 := rfl
  apply trim_short dm fun hzero => hne (List.length_eq_zero_iff.mp hzero)
  rw [filelineSize] at hlen
  omega

/-- A piece that is not empty, put into `line`. -/
theorem addPiece_view (r : Reading) (piece : CString) (goesOn : Bool) :
    (addPiece dm r piece goesOn).map Reading.view = sayStep dm r.view (piece.chars, goesOn) := by
  obtain ⟨line, hline, hchars⟩ : ∃ line : CString,
      (if r.isMultiline then concat r.line piece else piece) = line ∧
        line.chars = r.view.1 ++ piece.chars := by
    refine ⟨_, rfl, ?_⟩
    rw [Reading.view]
    cases r.isMultiline with
    | true => rfl
    | false => rfl
  rw [addPiece, hline, sayStep, ← hchars, toLine, CString.strlen]
  by_cases hfit : line.chars.length < lineSize
  · rw [if_pos hfit, if_pos hfit, ok_bind]
    cases goesOn with
    | true => rfl
    | false =>
        rw [if_neg Bool.false_ne_true, if_neg Bool.false_ne_true, useParts_eq dm r.conf hfit]
        show _ = entrySetting dm r.conf line.chars >>= _
        cases entrySetting dm r.conf line.chars with
        | error fault => rfl
        | ok conf => rfl
  · rw [if_neg hfit, if_neg hfit]
    rfl

/-- One turn of the loop: a piece that says nothing is passed over. -/
theorem readStep_view (r : Reading) (hne : fileline.chars ≠ [])
    (hlen : fileline.strlen < filelineSize) :
    (readStep dm r fileline).map Reading.view =
      match pieceOf fileline.chars with
      | some piece => sayStep dm r.view piece
      | none => pure r.view := by
  obtain ⟨t, htrim, hchars, hret, hmultiline⟩ := trim_piece dm hne hlen
  rw [readStep, htrim, afterTrim, pieceOf, hret, CString.strlen, hchars]
  by_cases hempty : (documentedLine fileline.chars).1 = []
  · rw [if_pos hempty, if_pos (by rw [hempty, List.length_nil])]
    rfl
  · have hgoesOn : decide (t.multiline = some true) = (documentedLine fileline.chars).2 := by
      rw [hmultiline]
      cases (documentedLine fileline.chars).2 <;> rfl
    rw [if_neg hempty, if_neg (fun hzero => hempty (List.length_eq_zero_iff.mp hzero)), hgoesOn,
      addPiece_view, hchars]

end Turn

/-! ## The whole file -/

/-- What a finished line sets is an error only where a known key has no
arguments. -/
theorem entrySetting_ok_iff (dm : DataModel) (conf : Conf) {entry : List Char}
    (hfit : entry.length < lineSize) :
    (∃ conf', entrySetting dm conf entry = .ok conf') ↔
      (keyOf entry ∈ knownKeys → argsOf entry ≠ []) := by
  have hargsFit : (argsOf entry).length < starfritArgsSize :=
    Nat.lt_of_le_of_lt (argsOf_length_le entry) hfit
  rw [entrySetting]
  by_cases hempty : keyOf entry = []
  · rw [if_pos hempty, hempty]
    exact ⟨fun _ hmem => absurd hmem (by decide), fun _ => ⟨conf, rfl⟩⟩
  rw [if_neg hempty]
  by_cases hargs : argsOf entry = []
  · -- Without arguments each known key stops at the null pointer.
    rw [if_pos hargs]
    by_cases hknown : keyOf entry ∈ knownKeys
    · have hkey : keyOf entry = keyPort ∨ keyOf entry = keyStarfrit ∨
          keyOf entry = keyStarfritUrl ∨ keyOf entry = keyLed := by
        simpa [knownKeys] using hknown
      have hfault : setting dm conf (keyOf entry) none = .error .nullArgs := by
        rcases hkey with hkey | hkey | hkey | hkey <;> rw [hkey] <;> rfl
      rw [hfault]
      exact ⟨fun ⟨_, h⟩ => (nomatch h), fun h => absurd hargs (h hknown)⟩
    · have hkey : keyOf entry ≠ keyPort ∧ keyOf entry ≠ keyStarfrit ∧
          keyOf entry ≠ keyStarfritUrl ∧ keyOf entry ≠ keyLed := by
        simpa [knownKeys] using hknown
      rw [setting, if_neg hkey.1, if_neg hkey.2.1, if_neg hkey.2.2.1, if_neg hkey.2.2.2]
      exact ⟨fun _ hmem => absurd hmem hknown, fun _ => ⟨conf, rfl⟩⟩
  · rw [if_neg hargs]
    refine ⟨fun _ _ => hargs, fun _ => ?_⟩
    rw [setting]
    split
    · exact ⟨_, rfl⟩
    split
    · exact ⟨_, rfl⟩
    split
    · exact ⟨{ conf with starfritArgs := argsOf entry }, if_pos hargsFit⟩
    split
    · exact ⟨_, rfl⟩
    · exact ⟨conf, rfl⟩

section File

variable (dm : DataModel)

/-- The pieces a run of the loop is handed. -/
def Pieces (filelines : List CString) : Prop :=
  ∀ fileline ∈ filelines, fileline.chars ≠ [] ∧ fileline.strlen < filelineSize

/-- What they say. -/
def saying (filelines : List CString) : List (List Char × Bool) :=
  filelines.filterMap fun fileline => pieceOf fileline.chars

/-- The whole loop. -/
theorem foldlM_readStep {filelines : List CString} (hpieces : Pieces filelines) (r : Reading) :
    (filelines.foldlM (readStep dm) r).map Reading.view =
      (saying filelines).foldlM (sayStep dm) r.view := by
  rw [saying, List.foldlM_filterMap]
  apply foldlM_view Reading.view
  intro r fileline hmem
  obtain ⟨hne, hlen⟩ := hpieces fileline hmem
  rw [readStep_view dm r hne hlen]
  cases pieceOf fileline.chars with
  | none => rfl
  | some piece => rfl

/-- When all lines fit, the finished lines are set one after another. -/
theorem foldlM_sayStep {pieces : List (List Char × Bool)} {acc : List Char}
    (hfit : ∀ line ∈ Joining.lines acc pieces, line.length < lineSize) (conf : Conf) :
    (pieces.foldlM (sayStep dm) (acc, conf)).map Prod.snd =
      (Joining.machine.run acc pieces).2.foldlM (entrySetting dm) conf := by
  induction pieces generalizing acc conf with
  | nil => rfl
  | cons said pieces ih =>
      obtain ⟨piece, goesOn⟩ := said
      rw [List.foldlM_cons, sayStep]
      cases goesOn with
      | true =>
          rw [Joining.lines_cons_open] at hfit
          rw [if_pos (Joining.lt_of_lines hfit), if_pos rfl, ok_bind, Joining.run_cons_open]
          exact ih hfit conf
      | false =>
          rw [Joining.lines_cons_closed] at hfit
          rw [if_pos (hfit _ List.mem_cons_self), if_neg Bool.false_ne_true,
            Joining.run_cons_closed, List.foldlM_cons]
          cases entrySetting dm conf (acc ++ piece) with
          | error fault => rfl
          | ok conf' => exact ih (fun line hmem => hfit line (List.mem_cons_of_mem _ hmem)) conf'

/-- The loop gets to its end only when they fit. -/
theorem fits_of_foldlM {pieces : List (List Char × Bool)} {acc : List Char} {conf : Conf}
    {s : List Char × Conf} (hacc : acc.length < lineSize)
    (hrun : pieces.foldlM (sayStep dm) (acc, conf) = .ok s) :
    ∀ line ∈ Joining.lines acc pieces, line.length < lineSize := by
  induction pieces generalizing acc conf with
  | nil =>
      intro line hmem
      rw [List.mem_singleton.mp hmem]
      exact hacc
  | cons said pieces ih =>
      obtain ⟨piece, goesOn⟩ := said
      rw [List.foldlM_cons] at hrun
      obtain ⟨next, hturn, hrun⟩ := bind_eq_ok hrun
      rw [sayStep] at hturn
      split at hturn
      · rename_i hfit
        cases goesOn with
        | true =>
            obtain rfl := Except.ok.inj hturn
            rw [Joining.lines_cons_open]
            exact ih hfit hrun
        | false =>
            obtain ⟨conf', _, hnext⟩ := bind_eq_ok hturn
            obtain rfl := Except.ok.inj hnext
            rw [Joining.lines_cons_closed]
            exact List.forall_mem_cons.mpr ⟨hfit, ih (by decide) hrun⟩
      · cases hturn

/-- The pieces of a file. -/
theorem filelines_spec (text : CString) :
    Pieces ((fgets filelineSize text.chars []).map CString.ofBuffer) ∧
      saying ((fgets filelineSize text.chars []).map CString.ofBuffer) =
        piecesOf text.chars := by
  have hspec := fgets_spec filelineSize text.chars [] (by decide) text.noNul
  constructor
  · intro fileline hmem
    obtain ⟨chars, hchars, rfl⟩ := List.mem_map.mp hmem
    obtain ⟨hne, hlen, hnul⟩ := hspec chars hchars
    rw [CString.strlen, CString.ofBuffer_eq hnul]
    exact ⟨hne, hlen⟩
  · rw [saying, piecesOf, List.filterMap_map]
    apply List.filterMap_congr
    intro chars hchars
    show pieceOf (CString.ofBuffer chars).chars = pieceOf chars
    rw [CString.ofBuffer_eq (hspec chars hchars).2.2]

/-- `readconf` without the buffers of its loop. -/
theorem readconf_view (text : CString) :
    readconf dm (some text) =
      ((piecesOf text.chars).foldlM (sayStep dm) ([], Conf.start)).map Prod.snd := by
  obtain ⟨hpieces, hsaying⟩ := filelines_spec text
  have hloop := foldlM_readStep dm hpieces ⟨emptyString, false, Conf.start⟩
  have hstart : Reading.view ⟨emptyString, false, Conf.start⟩ = ([], Conf.start) := rfl
  rw [hsaying, hstart] at hloop
  rw [readconf, ← hloop]
  cases List.foldlM (readStep dm) ⟨emptyString, false, Conf.start⟩ _ with
  | error fault => rfl
  | ok r => rfl

/-- `readconf` on a file whose lines fit. -/
theorem readconf_eq {text : CString} (hfit : LinesFit text.chars) :
    readconf dm (some text) = (entriesOf text.chars).foldlM (entrySetting dm) Conf.start := by
  rw [readconf_view, foldlM_sayStep dm hfit, entriesOf]

theorem foldlM_entrySetting_ok_iff {entries : List (List Char)}
    (hfit : ∀ entry ∈ entries, entry.length < lineSize) (conf : Conf) :
    (∃ conf', entries.foldlM (entrySetting dm) conf = .ok conf') ↔
      ∀ entry ∈ entries, keyOf entry ∈ knownKeys → argsOf entry ≠ [] := by
  induction entries generalizing conf with
  | nil => exact ⟨fun _ entry hmem => absurd hmem List.not_mem_nil, fun _ => ⟨conf, rfl⟩⟩
  | cons entry entries ih =>
      have hentry := entrySetting_ok_iff dm conf (hfit entry List.mem_cons_self)
      have hrest := ih fun entry hmem => hfit entry (List.mem_cons_of_mem _ hmem)
      rw [List.foldlM_cons, List.forall_mem_cons]
      constructor
      · rintro ⟨conf', hrun⟩
        obtain ⟨next, hnext, hrun⟩ := bind_eq_ok hrun
        exact ⟨hentry.mp ⟨next, hnext⟩, (hrest next).mp ⟨conf', hrun⟩⟩
      · rintro ⟨hhead, htail⟩
        obtain ⟨next, hnext⟩ := hentry.mpr hhead
        obtain ⟨conf', hrun⟩ := (hrest next).mpr htail
        exact ⟨conf', by rw [hnext, ok_bind, hrun]⟩

end File

/-! ## Main result -/

/-- `readconf` is safe on a file: what is read into `fileline` and what `trim`
leaves there fits, nothing is written past the end of `line` or of
`conf.starfrit_args`, no null pointer is used, and it returns. -/
def ReadconfSafe (dm : DataModel) (text : CString) : Prop :=
  (∀ fileline ∈ (fgets filelineSize text.chars []).map CString.ofBuffer,
    fileline.strlen < filelineSize ∧
      ∀ t, trim dm fileline = .ok t → t.s.strlen < filelineSize) ∧
  ∃ conf, readconf dm (some text) = .ok conf

/-- The files on which it is: no line is too long, and no known key stands
alone. -/
theorem readconf_safe_iff (dm : DataModel) (text : CString) :
    ReadconfSafe dm text ↔ LinesFit text.chars ∧ KeysHaveArgs text.chars := by
  have hpieces := (filelines_spec text).1
  have hentries : LinesFit text.chars → ∀ entry ∈ entriesOf text.chars, entry.length < lineSize :=
    fun hfit entry hmem => hfit entry (List.mem_append_left _ hmem)
  constructor
  · rintro ⟨_, conf, hconf⟩
    have hfit : LinesFit text.chars := by
      rw [readconf_view] at hconf
      cases hrun : (piecesOf text.chars).foldlM (sayStep dm) ([], Conf.start) with
      | error fault =>
          rw [hrun] at hconf
          cases hconf
      | ok s => exact fits_of_foldlM dm (by decide) hrun
    rw [readconf_eq dm hfit] at hconf
    exact ⟨hfit, (foldlM_entrySetting_ok_iff dm (hentries hfit) Conf.start).mp ⟨conf, hconf⟩⟩
  · rintro ⟨hfit, hargs⟩
    refine ⟨fun fileline hmem => ?_, ?_⟩
    · obtain ⟨hne, hlen⟩ := hpieces fileline hmem
      refine ⟨hlen, fun t ht => ?_⟩
      obtain ⟨t', ht', hchars, _⟩ := trim_piece dm hne hlen
      obtain rfl := Except.ok.inj (ht.symm.trans ht')
      rw [CString.strlen, hchars]
      exact Nat.lt_of_le_of_lt (length_documentedLine_le _) hlen
    · rw [readconf_eq dm hfit]
      exact (foldlM_entrySetting_ok_iff dm (hentries hfit) Conf.start).mpr hargs

/-- The file `port`, and a newline. -/
def portAlone : CString := CString.ofBuffer (keyPort ++ ['\n'])

/-- `atoi` is called on a null pointer. -/
theorem readconf_unsafe : ¬ ReadconfSafe .lp64 portAlone := by
  have hrun : readconf .lp64 (some portAlone) = .error .nullArgs := by
    decide +kernel
  rintro ⟨_, conf, hconf⟩
  rw [hrun] at hconf
  cases hconf

end IrBridge.Config
