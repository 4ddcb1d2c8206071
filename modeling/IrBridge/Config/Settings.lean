/-
  Config/Settings.lean --- what a file sets.

  Of a file that is read to its end, each variable of the configuration is set by
  the last finished line that has its key, and by no other.

  Files can also be written: a list of settings, in any order and any number of
  times, each on a line of its own with blanks around its words, and remarks
  between them.  `readconf` of the written file makes the settings, one after
  another, and nothing else.
-/
import IrBridge.Config.Edits
import IrBridge.Foundation.Blocks

set_option autoImplicit false

namespace IrBridge.Config

open IrBridge.Foundation
open IrBridge.Platform

/-! ## The last line counts -/

/-- The arguments of the last finished line with the key. -/
def lastArgs (key text : List Char) : Option (List Char) :=
  ((entriesOf text).filter fun entry => keyOf entry = key).getLast?.map argsOf

/-- `strcmp(args, "ON") == 0`. -/
def isOn (args : List Char) : Int := if args = ['O', 'N'] then 1 else 0

/-- The keys are four different words. -/
theorem keys_differ :
    keyPort ≠ keyStarfrit ∧ keyPort ≠ keyStarfritUrl ∧ keyPort ≠ keyLed ∧
      keyStarfrit ≠ keyStarfritUrl ∧ keyStarfrit ≠ keyLed ∧ keyStarfritUrl ≠ keyLed := by
  decide

/-- What a line sets, variable by variable. -/
structure Sets (dm : DataModel) (conf conf' : Conf) (entry : List Char) : Prop where
  port : conf'.port = if keyOf entry = keyPort then atoi dm (argsOf entry) else conf.port
  led : conf'.led = if keyOf entry = keyLed then atoi dm (argsOf entry) else conf.led
  starfrit : conf'.starfrit =
    if keyOf entry = keyStarfrit then isOn (argsOf entry) else conf.starfrit
  starfritArgs : conf'.starfritArgs =
    if keyOf entry = keyStarfritUrl then argsOf entry else conf.starfritArgs

/-- Arguments that are used are there. -/
theorem nonNull_eq {entry args : List Char}
    (h : nonNull (if argsOf entry = [] then none else some (argsOf entry)) = .ok args) :
    args = argsOf entry := by
  by_cases hargs : argsOf entry = []
  · rw [if_pos hargs] at h
    cases h
  · rw [if_neg hargs] at h
    exact (Except.ok.inj h).symm

theorem sets_of_entrySetting {dm : DataModel} {conf conf' : Conf} {entry : List Char}
    (h : entrySetting dm conf entry = .ok conf') : Sets dm conf conf' entry := by
  obtain ⟨hps, hpu, hpl, hsu, hsl, hul⟩ := keys_differ
  rw [entrySetting] at h
  by_cases hempty : keyOf entry = []
  · rw [if_pos hempty] at h
    obtain rfl := Except.ok.inj h
    have hnone : ∀ key ∈ knownKeys, keyOf entry ≠ key := by
      rw [hempty]
      decide
    have hport := hnone keyPort (by decide)
    have hled := hnone keyLed (by decide)
    have hstarfrit := hnone keyStarfrit (by decide)
    have hurl := hnone keyStarfritUrl (by decide)
    exact ⟨(if_neg hport).symm, (if_neg hled).symm, (if_neg hstarfrit).symm, (if_neg hurl).symm⟩
  rw [if_neg hempty, setting] at h
  split at h
  · rename_i hkey
    obtain ⟨args, hargs, hset⟩ := bind_eq_ok h
    obtain rfl := nonNull_eq hargs
    obtain rfl := Except.ok.inj hset
    exact ⟨(if_pos hkey).symm, (if_neg (hkey ▸ hpl)).symm, (if_neg (hkey ▸ hps)).symm,
      (if_neg (hkey ▸ hpu)).symm⟩
  rename_i hport
  split at h
  · rename_i hkey
    obtain ⟨args, hargs, hset⟩ := bind_eq_ok h
    obtain rfl := nonNull_eq hargs
    obtain rfl := Except.ok.inj hset
    exact ⟨(if_neg hport).symm, (if_neg (hkey ▸ hsl)).symm, (if_pos hkey).symm,
      (if_neg (hkey ▸ hsu)).symm⟩
  rename_i hstarfrit
  split at h
  · rename_i hkey
    obtain ⟨args, hargs, hset⟩ := bind_eq_ok h
    obtain rfl := nonNull_eq hargs
    split at hset
    · obtain rfl := Except.ok.inj hset
      exact ⟨(if_neg hport).symm, (if_neg (hkey ▸ hul)).symm, (if_neg hstarfrit).symm,
        (if_pos hkey).symm⟩
    · cases hset
  rename_i hurl
  split at h
  · rename_i hkey
    obtain ⟨args, hargs, hset⟩ := bind_eq_ok h
    obtain rfl := nonNull_eq hargs
    obtain rfl := Except.ok.inj hset
    exact ⟨(if_neg hport).symm, (if_pos hkey).symm, (if_neg hstarfrit).symm, (if_neg hurl).symm⟩
  · rename_i hled
    obtain rfl := Except.ok.inj h
    exact ⟨(if_neg hport).symm, (if_neg hled).symm, (if_neg hstarfrit).symm, (if_neg hurl).symm⟩

/-- A file that is read to its end is set line by line. -/
theorem readconf_entries {dm : DataModel} {text : CString} {conf : Conf}
    (h : readconf dm (some text) = .ok conf) :
    (entriesOf text.chars).foldlM (entrySetting dm) Conf.start = .ok conf := by
  have hview := readconf_view dm text
  rw [h] at hview
  cases hrun : (piecesOf text.chars).foldlM (sayStep dm) ([], Conf.start) with
  | error fault =>
      rw [hrun] at hview
      cases hview
  | ok s =>
      have hfit : LinesFit text.chars := fits_of_foldlM dm (by decide) hrun
      rw [← readconf_eq dm hfit, h]

/-- Whatever the file says: if `readconf` returns, the port and the LED are the
numbers of the last lines that give them, the scale is on if the last line on it
says `ON`, and the targets are those of the last line that lists any; what no line
gives is 8000, 0, off and empty. -/
theorem last_line_counts {dm : DataModel} {text : CString} {conf : Conf}
    (h : readconf dm (some text) = .ok conf) :
    conf.port = ((lastArgs keyPort text.chars).map (atoi dm)).getD 8000 ∧
      conf.led = ((lastArgs keyLed text.chars).map (atoi dm)).getD 0 ∧
      conf.starfrit = ((lastArgs keyStarfrit text.chars).map isOn).getD 0 ∧
      conf.starfritArgs = (lastArgs keyStarfritUrl text.chars).getD [] := by
  have hentries := readconf_entries h
  have hsets : ∀ s entry t, entrySetting dm s entry = .ok t → Sets dm s t entry :=
    fun s entry t => sets_of_entrySetting
  refine ⟨?_, ?_, ?_, ?_⟩
  · rw [lastArgs, Option.map_map]
    exact foldlM_last Conf.port _ (atoi dm ∘ argsOf)
      (fun s entry t ht => by simpa using (hsets s entry t ht).port) hentries
  · rw [lastArgs, Option.map_map]
    exact foldlM_last Conf.led _ (atoi dm ∘ argsOf)
      (fun s entry t ht => by simpa using (hsets s entry t ht).led) hentries
  · rw [lastArgs, Option.map_map]
    exact foldlM_last Conf.starfrit _ (isOn ∘ argsOf)
      (fun s entry t ht => by simpa using (hsets s entry t ht).starfrit) hentries
  · exact foldlM_last Conf.starfritArgs _ argsOf
      (fun s entry t ht => by simpa using (hsets s entry t ht).starfritArgs) hentries

/-- Of two ports the second counts; the LED is given once. -/
theorem last_line_counts_port :
    let text := CString.ofBuffer ['p', 'o', 'r', 't', ' ', '8', '0', '\n',
      'l', 'e', 'd', '\t', '4', '\n', 'p', 'o', 'r', 't', ' ', '9', '0', '\n']
    lastArgs keyPort text.chars = some ['9', '0'] ∧ lastArgs keyStarfrit text.chars = none ∧
      (⟨90, 4, 0, []⟩ : Conf).port =
        ((lastArgs keyPort text.chars).map (atoi .lp64)).getD 8000 := by
  intro text
  have hread : readconf .lp64 (some text) = .ok ⟨90, 4, 0, []⟩ := by decide +kernel
  exact ⟨by decide +kernel, by decide +kernel, (last_line_counts hread).1⟩

/-! ## Numbers -/

/-- `%d`. -/
def numeral (n : Int) : List Char :=
  if n < 0 then '-' :: Nat.toDigits 10 n.natAbs else Nat.toDigits 10 n.toNat

theorem isDigit_of_mem_digits {n : Nat} : ∀ c ∈ Nat.toDigits 10 n, c.isDigit = true :=
  fun _ hc => Nat.isDigit_of_mem_toDigits (by decide) (by decide) hc

/-- Counting with integers, over digits. -/
theorem foldl_digits {l : List Char} (hl : ∀ c ∈ l, c.isDigit = true) (m : Nat) :
    l.foldl (fun n c => 10 * n + ((c.toNat : Int) - 48)) (m : Int) =
      (Nat.ofDigitChars 10 l m : Nat) := by
  induction l generalizing m with
  | nil => rw [List.foldl_nil, Nat.ofDigitChars_nil]
  | cons c l ih =>
      obtain ⟨hc, hrest⟩ := List.forall_mem_cons.mp hl
      have hzero : '0'.toNat = 48 := rfl
      have hlow : 48 ≤ c.toNat := by
        have h := Char.isDigit_iff_toNat.mp hc
        omega
      have hvalue : 10 * (m : Int) + ((c.toNat : Int) - 48) =
          ((10 * m + (c.toNat - '0'.toNat) : Nat) : Int) := by
        omega
      rw [List.foldl_cons, Nat.ofDigitChars_cons, hvalue, ih hrest]

theorem digits_toDigits (n : Nat) : digits (Nat.toDigits 10 n) = n := by
  rw [digits, List.takeWhile_eq_self_iff.mpr isDigit_of_mem_digits]
  have hvalue := foldl_digits (isDigit_of_mem_digits (n := n)) 0
  rw [Nat.ofDigitChars_ten_toDigits] at hvalue
  exact hvalue

/-- The digits of a number start with a digit. -/
theorem toDigits_eq_cons (n : Nat) :
    ∃ c rest, Nat.toDigits 10 n = c :: rest ∧ c.isDigit = true := by
  obtain ⟨c, rest, hcons⟩ := List.exists_cons_of_ne_nil (Nat.toDigits_ne_nil (b := 10) (n := n))
  exact ⟨c, rest, hcons, isDigit_of_mem_digits c (by rw [hcons]; exact List.mem_cons_self)⟩

/-- Characters whose numbers are not those of digits. -/
theorem ne_of_isDigit {c d : Char} (hc : c.isDigit = true) (hd : d.isDigit = false) : c ≠ d := by
  rintro rfl
  rw [hd] at hc
  cases hc

theorem not_isSpace_of_isDigit {c : Char} (hc : c.isDigit = true) : isSpace c = false := by
  have hne : ∀ d, d.isDigit = false → (c == d) = false :=
    fun d hd => beq_eq_false_iff_ne.mpr (ne_of_isDigit hc hd)
  simp only [isSpace, hne ' ' rfl, hne '\t' rfl, hne '\n' rfl, hne '\x0b' rfl, hne '\x0c' rfl,
    hne '\r' rfl, Bool.or_self]

/-- The value that `strtol` finds in a numeral. -/
theorem strtol_numeral (dm : DataModel) (n : Int) :
    strtol dm (numeral n) = max (-((2 ^ (dm.sizeBits - 1) : Nat) : Int))
      (min (((2 ^ (dm.sizeBits - 1) : Nat) : Int) - 1) n) := by
  rw [strtol, numeral]
  by_cases hneg : n < 0
  · have hvalue : -digits (Nat.toDigits 10 n.natAbs) = n := by
      rw [digits_toDigits]
      omega
    rw [if_pos hneg, List.dropWhile_cons_of_neg (by decide)]
    exact congrArg (fun v => max _ (min _ v)) hvalue
  · obtain ⟨c, rest, hcons, hdigit⟩ := toDigits_eq_cons n.toNat
    have hvalue : digits (c :: rest) = n := by
      rw [← hcons, digits_toDigits]
      omega
    have hspace : ¬ isSpace c = true := by
      rw [not_isSpace_of_isDigit hdigit]
      exact Bool.false_ne_true
    rw [if_neg hneg, hcons, List.dropWhile_cons_of_neg hspace]
    -- A digit is not a sign.
    split
    · rename_i heq
      exact absurd (List.cons.inj heq).1 (ne_of_isDigit hdigit rfl)
    · rename_i heq
      exact absurd (List.cons.inj heq).1 (ne_of_isDigit hdigit rfl)
    · rw [hvalue]

/-- `atoi` reads what `%d` writes. -/
theorem atoi_numeral (dm : DataModel) {n : Int} (hlow : -intMax - 1 ≤ n) (hhigh : n ≤ intMax) :
    atoi dm (numeral n) = n := by
  have hmax : intMax = 2147483647 := rfl
  have hlimit : (2147483648 : Int) ≤ ((2 ^ (dm.sizeBits - 1) : Nat) : Int) := by
    cases dm <;> decide
  rw [atoi, strtol_numeral, Int.min_eq_right (by omega), Int.max_eq_right (by omega),
    toInt_of_int hlow hhigh]

/-! ## Written settings -/

/-- A number that an `int` holds. -/
structure IntValue where
  value : Int
  low : -intMax - 1 ≤ value
  high : value ≤ intMax

/-- Text that a line can give as its arguments. -/
structure ArgText where
  chars : List Char
  notEmpty : chars ≠ []
  noHash : ∀ c ∈ chars, c ≠ '#'
  first : ∀ c ∈ chars.head?, isWhite c = false
  last : ∀ c ∈ chars.getLast?, isWhite c = false ∧ c ≠ '\\'

/-- Words are such text. -/
def ArgText.ofWord (word : List Char) (hne : word ≠ [])
    (hword : ∀ c ∈ word, isWhite c = false ∧ c ≠ '#' ∧ c ≠ '\\') : ArgText where
  chars := word
  notEmpty := hne
  noHash := fun c hc => (hword c hc).2.1
  first := fun c hc => (hword c (List.mem_of_mem_head? hc)).1
  last := fun c hc =>
    ⟨(hword c (List.mem_of_mem_getLast? hc)).1, (hword c (List.mem_of_mem_getLast? hc)).2.2⟩

theorem numeral_ne_nil (n : Int) : numeral n ≠ [] := by
  rw [numeral]
  split
  · exact List.cons_ne_nil _ _
  · exact Nat.toDigits_ne_nil

/-- A numeral is a word. -/
theorem numeral_word (n : Int) : ∀ c ∈ numeral n, isWhite c = false ∧ c ≠ '#' ∧ c ≠ '\\' := by
  have hdigit : ∀ c : Char, c.isDigit = true → isWhite c = false ∧ c ≠ '#' ∧ c ≠ '\\' := by
    intro c hc
    have hne : ∀ d, d.isDigit = false → (c != d) = true :=
      fun d hd => bne_iff_ne.mpr (ne_of_isDigit hc hd)
    refine ⟨?_, ne_of_isDigit hc rfl, ne_of_isDigit hc rfl⟩
    rw [isWhite, regular, hne '\n' rfl, hne '\r' rfl, hne '\t' rfl, hne ' ' rfl]
    rfl
  intro c hc
  rw [numeral] at hc
  split at hc
  · rcases List.mem_cons.mp hc with rfl | hc
    · decide
    · exact hdigit c (isDigit_of_mem_digits c hc)
  · exact hdigit c (isDigit_of_mem_digits c hc)

/-- What a line can set. -/
inductive Setting where
  | port (n : IntValue)
  | led (n : IntValue)
  | starfrit (on : Bool)
  | starfritUrl (args : ArgText)

/-- The key of its line. -/
def Setting.key : Setting → List Char
  | .port _ => keyPort
  | .led _ => keyLed
  | .starfrit _ => keyStarfrit
  | .starfritUrl _ => keyStarfritUrl

/-- The arguments of its line. -/
def Setting.args : Setting → ArgText
  | .port n => .ofWord (numeral n.value) (numeral_ne_nil _) (numeral_word _)
  | .led n => .ofWord (numeral n.value) (numeral_ne_nil _) (numeral_word _)
  | .starfrit true => .ofWord ['O', 'N'] (List.cons_ne_nil _ _) (by simp [isWhite, regular])
  | .starfrit false =>
      .ofWord ['O', 'F', 'F'] (List.cons_ne_nil _ _) (by simp [isWhite, regular])
  | .starfritUrl args => args

/-- What it does to the configuration. -/
def Setting.apply (conf : Conf) : Setting → Conf
  | .port n => { conf with port := n.value }
  | .led n => { conf with led := n.value }
  | .starfrit on => { conf with starfrit := if on then 1 else 0 }
  | .starfritUrl args => { conf with starfritArgs := args.chars }

theorem Setting.key_mem (s : Setting) : s.key ∈ knownKeys := by
  cases s <;> simp [Setting.key, knownKeys]

/-- The keys are words. -/
theorem knownKeys_word :
    ∀ key ∈ knownKeys, key ≠ [] ∧ ∀ c ∈ key, isWhite c = false ∧ c ≠ '#' := by
  simp [knownKeys, keyPort, keyLed, keyStarfrit, keyStarfritUrl, isWhite, regular]

theorem isBlank_of_not_white {c : Char} (hc : isWhite c = false) : isBlank c = false := by
  cases hblank : isBlank c with
  | false => rfl
  | true => rw [← hc, isWhite_of_isBlank hblank]

section Words

variable (s : Setting) {gap : List Char}

/-- The words of a line that sets something. -/
def Setting.words (gap : List Char) : List Char := s.key ++ (gap ++ s.args.chars)

/-- They are what the line splits into. -/
theorem Setting.words_split (hgap : ∀ c ∈ gap, isBlank c = true) (hne : gap ≠ []) :
    keyOf (s.words gap) = s.key ∧ argsOf (s.words gap) = s.args.chars := by
  obtain ⟨hkey, hword⟩ := knownKeys_word s.key s.key_mem
  let p : LineParts := {
    lead := []
    key := s.key
    gap := gap
    args := s.args.chars
    lead_blank := fun _ hc => absurd hc List.not_mem_nil
    key_word := fun c hc => isBlank_of_not_white (hword c hc).1
    gap_blank := hgap
    args_word := fun c hc => isBlank_of_not_white (s.args.first c hc)
    gap_of_args := fun _ => hne
    key_of_gap := fun _ => hkey }
  have hline : p.line = s.words gap := rfl
  refine ⟨?_, hline ▸ p.argsOf_eq⟩
  show (fromKey p.line).takeWhile _ = s.key
  rw [p.fromKey_eq, List.takeWhile_append_of_pos fun c hc => by rw [p.key_word c hc]; rfl]
  cases hrest : p.gap ++ p.args with
  | nil => rw [List.takeWhile_nil, List.append_nil]
  | cons c rest =>
      have hblank := p.gap_head c (by rw [hrest]; rfl)
      rw [List.takeWhile_cons_of_neg (by rw [hblank]; decide), List.append_nil]

/-- They are what is left of the line, blanks around them aside. -/
theorem Setting.documentedLine_words {lead trail : List Char}
    (hgap : ∀ c ∈ gap, isBlank c = true) (hlead : ∀ c ∈ lead, isBlank c = true)
    (htrail : ∀ c ∈ trail, isBlank c = true) :
    documentedLine (lead ++ (s.words gap ++ trail)) = (s.words gap, false) := by
  obtain ⟨hkey, hword⟩ := knownKeys_word s.key s.key_mem
  apply documentedLine_plain
  · exact fun c hc => isWhite_of_isBlank (hlead c hc)
  · exact fun c hc => isWhite_of_isBlank (htrail c hc)
  · exact List.append_ne_nil_of_left_ne_nil hkey _
  · intro c hc
    rcases List.mem_append.mp hc with hc | hc
    · exact (hword c hc).2
    rcases List.mem_append.mp hc with hc | hc
    · rintro rfl
      exact absurd (hgap _ hc) (by decide)
    · exact s.args.noHash c hc
  · intro c hc
    obtain ⟨k, key, hcons⟩ := List.exists_cons_of_ne_nil hkey
    rw [Setting.words, hcons, List.cons_append, List.head?_cons, Option.mem_some_iff] at hc
    apply (hword c _).1
    rw [hcons, hc]
    exact List.mem_cons_self
  · intro c hc
    apply s.args.last c
    rw [Setting.words, List.getLast?_append, List.getLast?_append] at hc
    rw [List.getLast?_eq_some_getLast s.args.notEmpty] at hc ⊢
    exact hc

/-- Setting the line makes the setting. -/
theorem Setting.entrySetting_words (dm : DataModel) (conf : Conf)
    (hgap : ∀ c ∈ gap, isBlank c = true) (hne : gap ≠ []) (hfit : (s.words gap).length < lineSize) :
    entrySetting dm conf (s.words gap) = .ok (s.apply conf) := by
  obtain ⟨hkey, hargs⟩ := s.words_split hgap hne
  rw [entrySetting, hkey, hargs, if_neg (knownKeys_word s.key s.key_mem).1, if_neg s.args.notEmpty]
  cases s with
  | port n =>
      have hvalue := atoi_numeral dm n.low n.high
      exact congrArg (fun v => Except.ok { conf with port := v }) hvalue
  | led n =>
      have hvalue := atoi_numeral dm n.low n.high
      exact congrArg (fun v => Except.ok { conf with led := v }) hvalue
  | starfrit on => cases on <;> rfl
  | starfritUrl args =>
      have hlen := argsOf_length_le (Setting.words (.starfritUrl args) gap)
      rw [hargs] at hlen
      exact if_pos (Nat.lt_of_le_of_lt hlen hfit)

end Words

/-! ## Written files -/

/-- A line, and what it sets if it is not a remark: two words with blanks around
them. -/
inductive Writes : List Char → Option Setting → Prop where
  | remark {l : List Char} (hpassed : PassedOver l) : Writes l none
  | setting (s : Setting) {lead gap trail : List Char} (hlead : ∀ c ∈ lead, isBlank c = true)
      (hgap : ∀ c ∈ gap, isBlank c = true) (hne : gap ≠ [])
      (htrail : ∀ c ∈ trail, isBlank c = true) :
      Writes (lead ++ (s.words gap ++ trail)) (some s)

/-- A line that `fgets` reads whole. -/
structure Line where
  text : List Char
  makes : Option Setting
  writes : Writes text makes
  short : text.length ≤ 254
  oneLine : '\n' ∉ text
  noNul : ∀ c ∈ text, c ≠ '\x00'

/-- A file of such lines. -/
def fileOf (lines : List Line) : CString where
  chars := lines.flatMap fun l => l.text ++ ['\n']
  noNul := by
    intro c hc
    obtain ⟨l, _, hc⟩ := List.mem_flatMap.mp hc
    rcases List.mem_append.mp hc with hc | hc
    · exact l.noNul c hc
    · rw [List.mem_singleton.mp hc]
      decide

theorem linesOf_fileOf (lines : List Line) :
    linesOf (fileOf lines).chars = lines.map Line.text ++ [[]] := by
  induction lines with
  | nil => rfl
  | cons l lines ih =>
      have hcons : (fileOf (l :: lines)).chars = l.text ++ '\n' :: (fileOf lines).chars := by
        show List.flatMap _ _ = _
        rw [List.flatMap_cons, List.append_assoc]
        rfl
      rw [linesOf, hcons, List.splitOn_append_cons_self_of_not_mem l.oneLine, ← linesOf, ih]
      rfl

/-- What a line of the file makes the loop do. -/
theorem Line.sayStep_eq (dm : DataModel) (l : Line) (conf : Conf) :
    (pieceOf l.text).toList.foldlM (sayStep dm) ([], conf) =
      .ok ([], l.makes.toList.foldl Setting.apply conf) := by
  obtain ⟨text, makes, hwrites, hshort, _, _⟩ := l
  cases hwrites with
  | remark hpassed =>
      rw [pieceOf_insert hpassed]
      rfl
  | @setting s lead gap trail hlead hgap hne htrail =>
      have hwords : s.words gap ≠ [] :=
        List.append_ne_nil_of_left_ne_nil (knownKeys_word s.key s.key_mem).1 _
      have hfit : ([] ++ s.words gap).length < lineSize := by
        rw [List.length_append, List.length_append] at hshort
        rw [List.nil_append, lineSize]
        omega
      rw [pieceOf, s.documentedLine_words hgap hlead htrail, if_neg hwords, Option.toList_some,
        List.foldlM_cons, sayStep, if_pos hfit, if_neg Bool.false_ne_true, List.nil_append,
        s.entrySetting_words dm conf hgap hne hfit]
      rfl

/-- What the file makes it do. -/
theorem foldlM_sayStep_lines (dm : DataModel) (lines : List Line) (conf : Conf) :
    (lines.flatMap fun l => (pieceOf l.text).toList).foldlM (sayStep dm) ([], conf) =
      .ok ([], (lines.filterMap Line.makes).foldl Setting.apply conf) := by
  induction lines generalizing conf with
  | nil => rfl
  | cons l lines ih =>
      rw [List.flatMap_cons, List.foldlM_append, l.sayStep_eq dm conf, ok_bind, ih]
      cases hmakes : l.makes with
      | none => rw [List.filterMap_cons_none hmakes]; rfl
      | some s => rw [List.filterMap_cons_some hmakes]; rfl

theorem piecesOf_fileOf (lines : List Line) :
    piecesOf (fileOf lines).chars = lines.flatMap fun l => (pieceOf l.text).toList := by
  have hshort : ∀ l ∈ linesOf (fileOf lines).chars, l.length ≤ 254 := by
    rw [linesOf_fileOf]
    intro l hl
    rcases List.mem_append.mp hl with hl | hl
    · obtain ⟨line, _, rfl⟩ := List.mem_map.mp hl
      exact line.short
    · rw [List.mem_singleton.mp hl]
      exact Nat.zero_le _
  have hlines : piecesOf (fileOf lines).chars =
      (linesOf (fileOf lines).chars).filterMap pieceOf :=
    pieces_of_lines (fileOf lines).chars [] hshort
  have hempty : pieceOf [] = none := pieceOf_insert (Or.inl rfl)
  rw [hlines, linesOf_fileOf, List.filterMap_append, List.filterMap_cons_none hempty,
    List.filterMap_nil, List.append_nil, List.filterMap_map, List.filterMap_eq_flatMap_toList]
  rfl

/-- Reading a written file makes its settings, one after another, whatever their
order and however often each is made; blanks and remarks change nothing. -/
theorem written_settings (dm : DataModel) (lines : List Line) :
    readconf dm (some (fileOf lines)) =
      .ok ((lines.filterMap Line.makes).foldl Setting.apply Conf.start) := by
  rw [readconf_view, piecesOf_fileOf, foldlM_sayStep_lines]
  rfl

end IrBridge.Config
