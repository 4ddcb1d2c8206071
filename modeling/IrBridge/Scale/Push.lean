/-
  Scale/Push.lean --- `push_measurement`, a command for each target.

  The command is printed into an array of 255 characters: a fixed text, the url,
  the weight as `%f` and a closing quote.  A url may be as long as the argument
  string, and nothing compares the two.

  The weight is the tenths in single precision, which has the integer part of the
  tenths, so that it prints with as many digits (`length_command`).  What is left
  of the array is room for 226 characters of url and digits.
-/
import IrBridge.Foundation.Blocks
import IrBridge.Foundation.Decimals
import IrBridge.Scale.Measurements
import IrBridge.Scale.Targets

set_option autoImplicit false

namespace IrBridge.Scale

open IrBridge.Config
open IrBridge.Foundation
open IrBridge.Codec
open IrBridge.Platform

/-! ## The function -/

/-- What `push_measurement` must not do. -/
inductive PushFault where
  /-- `starfritconf` is read behind its end -/
  | tableOverread
  /-- a null url is printed -/
  | nullUrl
  /-- the command is longer than `path` -/
  | pathOverflow
  deriving DecidableEq

/-- `sizeof(path)`. -/
def pathSize : Nat := 255

/-- `curl -d "" -X POST "`, with the quotes. -/
def curlPrefix : List Char :=
  ['c', 'u', 'r', 'l', ' ', '-', 'd', ' ', '\x22', '\x22', ' ', '-', 'X', ' ',
    'P', 'O', 'S', 'T', ' ', '\x22']

/-- `sprintf(path, "curl -d \"\" -X POST \"%s%f\"", url, weight)`. -/
def command (url : List Char) (weight : Rat) : List Char :=
  curlPrefix ++ (url ++ (printFixed 6 weight ++ ['\x22']))

/-- `(float)((msb<<8) | lsb)/10`, in single precision. -/
def floatWeight (raw : Nat) : Rat := roundTo 24 (tenths raw)

section Push

variable {F : Type} [Zero F] [LE F] [LT F] [DecidableLE F] [DecidableLT F]

/-- `test`. -/
def admits (min max weight : F) : Bool := (min ≤ 0 || min ≤ weight) && (max ≤ 0 || max > weight)

/-- The body of the loop, with the commands run so far.  `number` is the `float`
of a value. -/
def pushTurn (number : Rat → F) (args : List Char) (weight : Rat) (run : List (List Char))
    (e : Target F Nat) : Except PushFault (List (List Char)) :=
  if admits e.min e.max (number weight) then
    match e.url with
    | none => .error .nullUrl
    | some url =>
        let path := command (readAt args url).chars weight
        if path.length < pathSize then .ok (run ++ [path]) else .error .pathOverflow
  else .ok run

/-- `push_measurement(weight)`: the commands it runs.  `args` is the string the
urls point into. -/
def pushMeasurement (number : Rat → F) (args : List Char) (t : Targets F) (weight : Rat) :
    Except PushFault (List (List Char)) :=
  (List.range t.starfritcount).foldlM
    (fun run n => do
      let e ← readCell .tableOverread t.starfritconf n
      pushTurn number args weight run e)
    []

/-- What a command needs. -/
theorem pushTurn_ok_iff (number : Rat → F) (args : List Char) (weight : Rat)
    (run : List (List Char)) (e : Target F Nat) :
    (∃ r, pushTurn number args weight run e = .ok r) ↔
      (admits e.min e.max (number weight) = true →
        ∃ url, e.url = some url ∧ (command (readAt args url).chars weight).length < pathSize) := by
  rw [pushTurn]
  by_cases hadmits : admits e.min e.max (number weight) = true
  · rw [if_pos hadmits]
    cases e.url with
    | none => exact ⟨fun ⟨_, h⟩ => (by cases h), fun h => (by cases (h hadmits).choose_spec.1)⟩
    | some url =>
        dsimp only
        by_cases hfits : (command (readAt args url).chars weight).length < pathSize
        · rw [if_pos hfits]
          exact ⟨fun _ _ => ⟨url, rfl, hfits⟩, fun _ => ⟨_, rfl⟩⟩
        · rw [if_neg hfits]
          constructor
          · rintro ⟨_, h⟩
            cases h
          · intro h
            obtain ⟨url', hurl, hfits'⟩ := h hadmits
            rw [← Option.some.inj hurl] at hfits'
            exact absurd hfits' hfits
  · rw [if_neg hadmits]
    exact ⟨fun _ h => absurd h hadmits, fun _ => ⟨run, rfl⟩⟩

end Push

/-! ## The length of a command -/

/-- Whole kilograms are exact in single precision. -/
theorem floatWeight_whole {n : Nat} (hpos : 0 < n) (hn : n < 2 ^ 24) :
    floatWeight (10 * n) = n := by
  have htenths : tenths (10 * n) = n := by
    rw [tenths]
    push_cast
    exact mul_div_cancel_left₀ _ (by norm_num)
  rw [floatWeight, htenths, roundTo_natCast hpos hn]

/-- Every other weight moves by less than a thousandth. -/
theorem abs_floatWeight_sub_lt {v : Nat} (hpos : 1 ≤ v) (hv : v ≤ 65535) :
    |floatWeight v - tenths v| < 1 / 1000 := by
  have hv' : (v : Rat) ≤ 65535 := by exact_mod_cast hv
  have htenths : 0 < tenths v := by
    have hcast : (0 : Rat) < v := by exact_mod_cast hpos
    rw [tenths]
    positivity
  have hbelow : tenths v < 2 ^ (13 : Int) := by
    rw [tenths]
    norm_num
    linarith
  calc |floatWeight v - tenths v|
      ≤ 2 ^ ((13 : Int) - (24 : Nat) - 1) := abs_roundTo_sub_le 24 htenths hbelow
    _ < 1 / 1000 := by norm_num

/-- Single precision keeps the integer part of the tenths, and `%f` does not carry
into it. -/
theorem floatWeight_bounds {v : Nat} (hpos : 1 ≤ v) (hv : v ≤ 65535) :
    ((v / 10 : Nat) : Rat) ≤ floatWeight v ∧
      floatWeight v * 10 ^ 6 ≤ ((v / 10 : Nat) + 1) * 10 ^ 6 - 1 := by
  by_cases hwhole : v % 10 = 0
  · have hfloat : floatWeight v = (v / 10 : Nat) := by
      have hmul : v = 10 * (v / 10) := by omega
      have hexact := floatWeight_whole (n := v / 10) (by omega) (by omega)
      rwa [← hmul] at hexact
    rw [hfloat]
    exact ⟨le_rfl, by linarith⟩
  · have hlow : ((10 * (v / 10) + 1 : Nat) : Rat) ≤ v := by exact_mod_cast (by omega)
    have hhigh : (v : Rat) ≤ ((10 * (v / 10) + 9 : Nat) : Rat) := by exact_mod_cast (by omega)
    have hnear := abs_lt.mp (abs_floatWeight_sub_lt hpos hv)
    rw [tenths] at hnear
    push_cast at hlow hhigh
    constructor <;> linarith [hnear.1, hnear.2]

theorem length_command {v : Nat} (hpos : 1 ≤ v) (hv : v ≤ 65535) (url : List Char) :
    (command url (floatWeight v)).length =
      28 + url.length + (Nat.toDigits 10 (v / 10)).length := by
  obtain ⟨hlow, hhigh⟩ := floatWeight_bounds hpos hv
  have hprint := length_printFixed (by decide) hlow hhigh
  have hprefix : curlPrefix.length = 20 := rfl
  rw [command, List.length_append, List.length_append, List.length_append, hprint, hprefix,
    List.length_singleton]
  omega

/-! ## The weights that are pushed -/

/-- Two bytes of weight. -/
theorem raw_figureOf (d0 d1 d2 d3 d4 : Byte) : (figureOf d0 d1 d2 d3 d4).raw ≤ 65535 := by
  have hmsb : complement d2 < 2 ^ 8 := (~~~d2).isLt
  have hlsb : complement d3 < 2 ^ 8 := (~~~d3).isLt
  show complement d2 <<< 8 ||| complement d3 ≤ 65535
  rw [← Nat.shiftLeft_add_eq_or_of_lt hlsb, Nat.shiftLeft_eq]
  omega

theorem raw_of_examine {samples : List Byte} {f : Figure} (h : examine samples = .accepted f) :
    f.raw ≤ 65535 := by
  unfold examine at h
  split at h
  · dsimp only at h
    split at h
    · split at h
      · rw [← Verdict.accepted.inj h]
        exact raw_figureOf _ _ _ _ _
      · cases h
    · cases h
  · cases h

/-- No frame carries more. -/
theorem raw_of_starfritVerdict {buff : CString} {f : Figure}
    (h : starfritVerdict buff = .accepted f) : f.raw ≤ 65535 := by
  rw [starfritVerdict] at h
  split at h
  · exact raw_of_examine h
  · cases h

/-- What is pushed is the weight that was measured, and not zero. -/
theorem mem_pushed_measure {m : Measurements} {weight weight' : Rat} {t : Int}
    (h : weight' ∈ pushed (measure m weight t).2) : weight' = weight ∧ weight ≠ 0 := by
  rw [pushed, List.mem_filterMap] at h
  obtain ⟨event, hevent, hpush⟩ := h
  cases event with
  | progress w count elapsed => cases hpush
  | push w =>
      obtain rfl := Option.some.inj hpush
      unfold measure at hevent
      generalize (if t - m.lastMeasurementDate > 15 then resetMeasurements m else m) = m' at hevent
      dsimp only at hevent
      by_cases hlast : m'.lastMeasurement = weight
      · rw [if_pos hlast] at hevent
        rcases List.mem_append.mp hevent with hevent | hevent
        · split at hevent
          · cases List.mem_singleton.mp hevent
          · cases hevent
        · split at hevent
          · rename_i hcond
            cases List.mem_singleton.mp hevent
            exact ⟨rfl, hcond.2⟩
          · cases hevent
      · rw [if_neg hlast] at hevent
        cases hevent

/-- One frame pushes only weights of two bytes that are not zero. -/
theorem starfritFrame_pushes (clock : Nat → Int) (s : Starfrit) (buff : CString) :
    ∃ p, (starfritFrame clock s buff).trace = s.trace ++ [p] ∧
      ∀ weight ∈ p.pushes, ∃ v, 1 ≤ v ∧ v ≤ 65535 ∧ weight = tenths v := by
  cases hraw : starfritRaw buff with
  | none =>
      rw [starfritFrame_of_not_accepted clock s hraw]
      exact ⟨_, rfl, fun weight hweight => absurd hweight List.not_mem_nil⟩
  | some raw =>
      obtain ⟨f, hverdict, rfl⟩ := accepted_of_starfritRaw hraw
      rw [starfritFrame_of_accepted clock s hverdict]
      refine ⟨_, rfl, fun weight hweight => ?_⟩
      obtain ⟨rfl, hne⟩ := mem_pushed_measure hweight
      have hbound := raw_of_starfritVerdict hverdict
      have hpos : f.raw ≠ 0 := fun hzero => hne (tenths_eq_zero.mpr hzero)
      exact ⟨f.raw, by omega, hbound, rfl⟩

/-- In every run of the receiver, what is pushed is a raw weight from 1 to 65535,
in tenths. -/
theorem pushed_weights (clock : Nat → Int) {st st' : DecodeState} {s : Starfrit}
    {blocks : List (List LircT)}
    (hrun : starfritBlocks clock (st, Starfrit.start) blocks = .ok (st', s)) :
    ∀ p ∈ s.trace, ∀ weight ∈ p.pushes, ∃ v, 1 ≤ v ∧ v ≤ 65535 ∧ weight = tenths v := by
  rw [starfritBlocks_eq_run] at hrun
  obtain ⟨-, rfl⟩ := Prod.mk.inj (Except.ok.inj hrun)
  generalize (unkn0.wordMachine.run st blocks.flatten).2 = frames
  induction frames using List.reverseRecOn with
  | nil => exact fun p hp => absurd hp List.not_mem_nil
  | append_singleton frames frame ih =>
      obtain ⟨p, htrace, hpushes⟩ :=
        starfritFrame_pushes clock (frames.foldl (starfritFrame clock) Starfrit.start) frame
      rw [List.foldl_append, List.foldl_cons, List.foldl_nil, htrace]
      intro q hq
      rcases List.mem_append.mp hq with hq | hq
      · exact ih q hq
      · rw [List.mem_singleton.mp hq]
        exact hpushes

/-! ## The targets of an argument string -/

/-- What is left of a token by `trim`. -/
def trimmedText (token : List Char) : List Char := (documentedLine token).1

/-- The lower bounds, upper bounds and urls that an argument string lists. -/
def listedTargets (text : List Char) : List (List Char × List Char × List Char) :=
  (Grouping.machine.run .none ((tokensOf text).map trimmedText)).2.filter fun x => isHttp x.2.2

section Listed

variable {F : Type} [Zero F] [LT F] [DecidableLT F] {atof : List Char → F}
  {text : List Char} {done : List Token} {s : Setup F}

/-- The groups of placed tokens, as they read, are those of the string. -/
theorem Progress.listed (h : Progress atof (tokensOf text) done [] s) :
    listedTargets text =
      ((Grouping.machine.run .none done).2.filter isTarget).map (Grouping.groupMap Token.text) := by
  have hdone := h.tokens_eq
  rw [List.append_nil] at hdone
  have htexts : (tokensOf text).map trimmedText = done.map Token.text := by
    rw [← hdone, List.map_map]
    rfl
  rw [listedTargets, htexts, Grouping.run_map, List.filter_map]
  rfl

/-- Their urls can be read in the table. -/
theorem Progress.read_url (h : Progress atof (tokensOf text) done [] s)
    {group : Token × Token × Token} (hgroup : group ∈ (Grouping.machine.run .none done).2) :
    (readAt s.scan.args group.2.2.pos).chars = group.2.2.text := by
  have hread : done.map (fun x => (readAt s.scan.args x.pos).chars) = done.map Token.text :=
    List.map_congr_left fun x hx => h.read atof hx
  have hgroups := congrArg (fun texts => (Grouping.machine.run .none texts).2) hread
  simp only [Grouping.run_map, List.map_inj_left] at hgroups
  exact congrArg (fun texts => texts.2.2) (hgroups group hgroup)

theorem Progress.counted_le (h : Progress atof (tokensOf text) done [] s) :
    s.targets.starfritcount ≤ s.targets.starfritconf.length := by
  have hlen := congrArg List.length h.filled.counted_eq
  rw [Targets.counted, List.length_take, List.length_map, ← h.filled.count_eq] at hlen
  omega

end Listed

/-! ## Main result -/

section Fits

variable {F : Type} [Zero F] [LE F] [LT F] [DecidableLE F] [DecidableLT F]

/-- A target of the argument string that takes the weight has a url that fits. -/
def UrlsFit (atof : List Char → F) (number : Rat → F) (text : List Char) (v : Nat) : Prop :=
  ∀ x ∈ listedTargets text,
    admits (limit (atof x.1)) (limit (atof x.2.1)) (number (floatWeight v)) = true →
      x.2.2.length + (Nat.toDigits 10 (v / 10)).length ≤ 226

/-- With the table of an argument string, the commands fit if and only if the urls
do. -/
theorem Progress.push_ok_iff {atof : List Char → F} (number : Rat → F) {text : List Char}
    {done : List Token} {s : Setup F} (h : Progress atof (tokensOf text) done [] s) {v : Nat}
    (hpos : 1 ≤ v) (hv : v ≤ 65535) :
    (∃ run, pushMeasurement number s.scan.args s.targets (floatWeight v) = .ok run) ↔
      UrlsFit atof number text v := by
  have hsize : pathSize = 255 := rfl
  rw [pushMeasurement, readLoop_eq _ _ h.counted_le, ← Targets.counted, h.filled.counted_eq,
    foldlM_ok_iff fun run e _ => pushTurn_ok_iff number s.scan.args (floatWeight v) run e,
    List.forall_mem_map, UrlsFit, h.listed, List.forall_mem_map]
  apply forall_congr'
  intro group
  apply forall_congr'
  intro hgroup
  have hread := h.read_url (List.mem_filter.mp hgroup).1
  have hlen := length_command hpos hv (readAt s.scan.args group.2.2.pos).chars
  rw [hread] at hlen
  apply imp_congr_right
  intro _
  constructor
  · rintro ⟨url, hurl, hfits⟩
    rw [← Option.some.inj hurl, hread, hlen] at hfits
    show group.2.2.text.length + _ ≤ 226
    omega
  · intro hfits
    refine ⟨group.2.2.pos, rfl, ?_⟩
    change group.2.2.text.length + _ ≤ 226 at hfits
    rw [hread, hlen]
    omega

/-- With urls of at most 222 characters, nothing that is pushed in a run of the
receiver leaves `path`. -/
theorem Progress.pushes_fit {atof : List Char → F} (number : Rat → F) {text : List Char}
    {done : List Token} {s : Setup F} (h : Progress atof (tokensOf text) done [] s)
    (hshort : ∀ x ∈ listedTargets text, x.2.2.length ≤ 222) (clock : Nat → Int)
    {st st' : DecodeState} {d : Starfrit} {blocks : List (List LircT)}
    (hrun : starfritBlocks clock (st, Starfrit.start) blocks = .ok (st', d)) :
    ∀ p ∈ d.trace, ∀ weight ∈ p.pushes, ∃ v, weight = tenths v ∧
      ∃ run, pushMeasurement number s.scan.args s.targets (floatWeight v) = .ok run := by
  intro p hp weight hweight
  obtain ⟨v, hpos, hv, hraw⟩ := pushed_weights clock hrun p hp weight hweight
  refine ⟨v, hraw, (h.push_ok_iff number hpos hv).mpr fun x hx _ => ?_⟩
  have hurl := hshort x hx
  have hdigits : (Nat.toDigits 10 (v / 10)).length ≤ 4 :=
    (Nat.length_toDigits_le_iff (by decide) (by decide)).mpr (by omega)
  omega

/-- The argument string is set up, and every command pushed for the raw weight `v`
fits `path` with its NUL. -/
def PushFits (dm : DataModel) (atof : List Char → F) (number : Rat → F) (t : Targets F)
    (led : Int) (args : CString) (v : Nat) : Prop :=
  ∃ s, starfritSetup dm atof t led (some args) = .ok s ∧
    ∃ run, pushMeasurement number s.scan.args s.targets (floatWeight v) = .ok run

/-- The argument strings and weights for which the commands fit. -/
theorem push_fits_iff (dm : DataModel) (atof : List Char → F) (number : Rat → F) {t : Targets F}
    (hstart : t.starfritcount = 0) (led : Int) {args : CString} (hlen : args.strlen ≤ 1023)
    {v : Nat} (hpos : 1 ≤ v) (hv : v ≤ 65535) :
    PushFits dm atof number t led args v ↔ UrlsFit atof number args.chars v := by
  obtain ⟨done, s, hrun, hprogress⟩ := starfrit_setup_progress atof dm hstart led hlen
  rw [← hprogress.push_ok_iff number hpos hv]
  constructor
  · rintro ⟨s', hrun', hpush⟩
    rwa [Except.ok.inj (hrun'.symm.trans hrun)] at hpush
  · exact fun hpush => ⟨s, hrun, hpush⟩

end Fits

/-- The arguments `0;0;http://x` and 72.5 kg. -/
theorem push_fits_iff_one :
    PushFits .ilp32 (fun _ => (0 : Rat)) id Targets.start 4
        (CString.ofBuffer ['0', ';', '0', ';', 'h', 't', 't', 'p', ':', '/', '/', 'x']) 725 ↔
      UrlsFit (fun _ => (0 : Rat)) id
        (CString.ofBuffer ['0', ';', '0', ';', 'h', 't', 't', 'p', ':', '/', '/', 'x']).chars
        725 :=
  push_fits_iff .ilp32 _ id rfl 4 (by decide) (by decide) (by decide)

/-! ## A url that does not fit -/

/-- A url of 230 characters. -/
def longUrl : List Char := httpPrefix ++ List.replicate 223 'x'

/-- The arguments `0;0;` and the url. -/
def longArgs : CString := CString.ofBuffer (['0', ';', '0', ';'] ++ longUrl)

theorem listedTargets_longArgs : (['0'], ['0'], longUrl) ∈ listedTargets longArgs.chars := by
  decide +kernel

/-- Both limits of the target are off, and 0.1 kg is printed behind a url that is
too long by five characters. -/
theorem push_overflows :
    ¬ PushFits .ilp32 (fun _ => (0 : Rat)) id Targets.start 4 longArgs 1 := by
  rintro ⟨s, hrun, hpush⟩
  have hlen : longArgs.strlen ≤ 1023 := by decide +kernel
  obtain ⟨done, s', hrun', hprogress⟩ :=
    starfrit_setup_progress (fun _ => (0 : Rat)) .ilp32 (t := Targets.start) rfl 4 hlen
  rw [Except.ok.inj (hrun.symm.trans hrun')] at hpush
  have hfits := (hprogress.push_ok_iff id (by decide) (by decide)).mp hpush _
    listedTargets_longArgs (by simp [admits, limit])
  exact absurd hfits (by decide +kernel)

end IrBridge.Scale
