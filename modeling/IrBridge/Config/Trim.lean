/-
  Config/Trim.lean --- `trim`, the line editor of the configuration.

  `trim` works in place: a first loop copies the line from its first regular
  character on, and a second one walks back from the end, where it cuts trailing
  blanks and comments and turns the backslash of a continued line into a space.
  Three flags of the second loop switch on and off as it goes.

  `documentedLine` says what the line is meant to become, without any loop.  The
  proof splits the backwards walk where the flags change: the end of the line
  (`cropTail_end`), a run of backslashes (`cropTail_break`) and the rest of the
  text (`cropTail_text`).  Lengths are an `int`, so the main result is about the
  lengths an `int` holds, and says what becomes of the others.
-/
import IrBridge.Platform.Types
import Mathlib.Data.List.DropRight

set_option autoImplicit false

namespace IrBridge.Config

open IrBridge.Platform

/-! ## The two loops -/

/-- `regular char meet ?` -/
def regular (b : Bool) (c : Char) : Bool :=
  b || (c != '\n' && c != '\r' && c != '\t' && c != ' ')

/-- `1. trim beginning`: what is copied to `out`, or `none` for a line that
starts with a comment. -/
def trimHead : List Char → Bool → List Char → Option (List Char)
  | [], _, out => some out
  | c :: rest, b, out =>
      let b := regular b c
      if b then
        if out.length = 0 ∧ c = '#' then none else trimHead rest b (out ++ [c])
      else trimHead rest b out

/-- `b`, `bnl` and `multl`. -/
structure TailFlags where
  b : Bool
  bnl : Bool
  multl : Bool
  deriving DecidableEq

/-- One turn of `2. crop the tail`, at the character `c` with `prev` before it:
the flags after it, and what is left in its place. -/
def tailStep (f : TailFlags) (c : Char) (prev : Option Char) : TailFlags × Char :=
  let b := regular f.b c
  let bnl := f.bnl || (c != '\n' && c != '\r' && c != '\\')
  let found := !bnl && c == '\\'
  let kept := if found then ' ' else c
  let cropped := if !b then '\x00' else kept
  if b ∧ cropped = '#' ∧ (prev = some ' ' ∨ prev = some '\t') then
    (⟨false, bnl, false⟩, '\x00')
  else (⟨b, bnl, f.multl || found⟩, cropped)

/-- The loop from the end of the line: the characters still to visit, the last
one first, and the array behind them. -/
def cropTail : List Char → TailFlags → List Char → TailFlags × List Char
  | [], f, cells => (f, cells)
  | c :: rest, f, cells =>
      let turn := tailStep f c rest.head?
      cropTail rest turn.1 (turn.2 :: cells)

/-- The array of the line after `trim`, the returned length, and what was stored in
`*multiline`, if anything. -/
structure Trimmed where
  cells : List Char
  ret : Nat
  multiline : Option Bool
  deriving DecidableEq

/-- The line after `trim`. -/
def Trimmed.s (r : Trimmed) : CString := CString.ofBuffer r.cells

/-- `trim(s, &multiline)`. -/
def trim (dm : DataModel) (s : CString) : Except Fault Trimmed :=
  let len := toInt s.strlen
  if len = 0 then .ok ⟨s.cells, 0, none⟩
  else do
    let size ← signed (len + 1)
    if toSize dm size > ptrdiffMax dm then return ⟨s.cells, 0, none⟩
    else if toSize dm size = 0 then .error .writeOutside
    else
      match trimHead (s.chars.take len.toNat) false [] with
      | none => return ⟨'\x00' :: s.cells.drop 1, 0, some false⟩
      | some out =>
          -- `strcpy(s, out)` leaves what stands behind its NUL.
          let cropped := cropTail out.reverse ⟨false, false, false⟩
            ('\x00' :: s.cells.drop (out.length + 1))
          return ⟨cropped.2, (CString.ofBuffer cropped.2).strlen, some cropped.1.multl⟩

/-! ## The documented line -/

/-- Newline, carriage return, tab and space. -/
def isWhite (c : Char) : Bool := !regular false c

/-- Tab and space. -/
def isBlank (c : Char) : Bool := c == ' ' || c == '\t'

theorem isBlank_iff {c : Char} : isBlank c = true ↔ c = ' ' ∨ c = '\t' := by
  simp [isBlank]

/-- Newline and carriage return. -/
def isEol (c : Char) : Bool := c == '\n' || c == '\r'

/-- Newline, carriage return and backslash. -/
def isBreak (c : Char) : Bool := isEol c || c == '\\'

/-- The text before the first `#` that stands directly after a blank, if there is
one. -/
def beforeComment : List Char → Option (List Char)
  | [] => none
  | [_] => none
  | c :: d :: rest =>
      if isBlank c ∧ d = '#' then some [c] else (beforeComment (d :: rest)).map (c :: ·)

/-- Every backslash of the trailing run of line ends and backslashes becomes a
space. -/
def openBreak (t : List Char) : List Char :=
  t.rdropWhile isBreak ++ (t.rtakeWhile isBreak).map fun c => if c = '\\' then ' ' else c

/-- What the part from the first regular character on becomes, and whether the
line goes on. -/
def documentedTail (t : List Char) : List Char × Bool :=
  match beforeComment t with
  | some code => (code.rdropWhile isWhite, false)
  | none =>
      if (t.rdropWhile isEol).getLast? = some '\\' then (openBreak (t.rdropWhile isEol), true)
      else (t.rdropWhile isWhite, false)

/-- What the line becomes, and whether it goes on. -/
def documentedLine (s : List Char) : List Char × Bool :=
  let t := s.dropWhile isWhite
  if t = [] ∨ t.head? = some '#' then ([], false) else documentedTail t

/-! ## The first loop -/

theorem trimHead_copying (rest : List Char) {out : List Char} (hout : out ≠ []) :
    trimHead rest true out = some (out ++ rest) := by
  induction rest generalizing out with
  | nil => rw [trimHead, List.append_nil]
  | cons c rest ih =>
      have hlen : out.length ≠ 0 := fun hzero => hout (List.length_eq_zero_iff.mp hzero)
      have hreg : regular true c = true := rfl
      rw [trimHead]
      simp only [hreg, if_true]
      rw [if_neg (fun h => hlen h.1), ih (by simp), List.append_assoc, List.singleton_append]

/-- The first loop drops the leading white characters, unless what follows is a
comment. -/
theorem trimHead_eq (s : List Char) :
    trimHead s false [] =
      if (s.dropWhile isWhite).head? = some '#' then none else some (s.dropWhile isWhite) := by
  induction s with
  | nil => rfl
  | cons c rest ih =>
      rw [trimHead]
      cases hreg : regular false c with
      | false =>
          have hwhite : isWhite c = true := by rw [isWhite, hreg]; rfl
          simp only [Bool.false_eq_true, if_false, List.dropWhile_cons_of_pos hwhite]
          exact ih
      | true =>
          have hwhite : ¬ isWhite c = true := by rw [isWhite, hreg]; exact Bool.false_ne_true
          simp only [if_true, List.dropWhile_cons_of_neg hwhite, List.head?_cons,
            List.length_nil, true_and, Option.some.injEq]
          by_cases hcomment : c = '#'
          · rw [if_pos hcomment, if_pos hcomment]
          · rw [if_neg hcomment, if_neg hcomment, trimHead_copying rest (by simp)]
            rfl

/-! ## The second loop -/

/-- The string an array holds. -/
def stringOf (cells : List Char) : List Char := cells.takeWhile (· ≠ '\x00')

theorem stringOf_cons {c : Char} (hc : c ≠ '\x00') (cells : List Char) :
    stringOf (c :: cells) = c :: stringOf cells :=
  List.takeWhile_cons_of_pos (by simpa using hc)

/-- A comment ends the text at the place where it starts. -/
theorem beforeComment_concat (t : List Char) (c : Char) :
    beforeComment (t ++ [c]) =
      match beforeComment t with
      | some code => some code
      | none =>
          if c = '#' ∧ (t.getLast? = some ' ' ∨ t.getLast? = some '\t') then some t
          else none := by
  induction t with
  | nil => simp [beforeComment]
  | cons a t ih =>
      cases t with
      | nil =>
          simp only [List.singleton_append, beforeComment, List.getLast?_singleton,
            Option.some.injEq, Option.map_none]
          by_cases hcomment : c = '#'
          · by_cases hblank : isBlank a = true
            · have ha := isBlank_iff.mp hblank
              rw [if_pos ⟨hblank, hcomment⟩, if_pos ⟨hcomment, ha⟩]
            · have ha := mt isBlank_iff.mpr hblank
              rw [if_neg (fun h => hblank h.1), if_neg (fun h => ha h.2)]
          · rw [if_neg (fun h => hcomment h.2), if_neg (fun h => hcomment h.1)]
      | cons d t =>
          rw [List.cons_append, List.cons_append, beforeComment, beforeComment]
          by_cases hhere : isBlank a = true ∧ d = '#'
          · rw [if_pos hhere, if_pos hhere]
          · rw [if_neg hhere, if_neg hhere, ← List.cons_append, ih]
            have hlast : (a :: d :: t).getLast? = (d :: t).getLast? := by simp
            rw [hlast]
            cases beforeComment (d :: t) with
            | some code => rfl
            | none =>
                simp only [Option.map_none]
                split <;> rfl

/-- A character that is no `#` opens no comment. -/
theorem beforeComment_concat_of_ne (t : List Char) {c : Char} (hc : c ≠ '#') :
    beforeComment (t ++ [c]) = beforeComment t := by
  rw [beforeComment_concat]
  cases beforeComment t with
  | some code => rfl
  | none => exact if_neg fun h => hc h.1

theorem cropTail_concat (t : List Char) (c : Char) (f : TailFlags) (cells : List Char) :
    cropTail (t ++ [c]).reverse f cells =
      cropTail t.reverse (tailStep f c t.getLast?).1
        ((tailStep f c t.getLast?).2 :: cells) := by
  rw [List.reverse_append, List.reverse_singleton, List.singleton_append, cropTail,
    List.head?_reverse]

/-- Once the end of the line is behind, a turn looks for text and for comments
only. -/
theorem tailStep_text {f : TailFlags} (hbnl : f.bnl = true) (c : Char) (prev : Option Char) :
    tailStep f c prev =
      if c = '#' ∧ (prev = some ' ' ∨ prev = some '\t') then (⟨false, true, false⟩, '\x00')
      else (⟨regular f.b c, true, f.multl⟩, if regular f.b c then c else '\x00') := by
  obtain ⟨b, bnl, multl⟩ := f
  obtain rfl : bnl = true := hbnl
  unfold tailStep
  simp only [Bool.true_or, Bool.not_true, Bool.false_and, Bool.false_eq_true, if_false,
    Bool.or_false]
  by_cases hcomment : c = '#'
  · subst hcomment
    have hreg : regular b '#' = true := by cases b <;> rfl
    simp only [hreg, Bool.not_true, Bool.false_eq_true, if_false, true_and, if_true]
  · cases regular b c with
    | false => simp [hcomment]
    | true => simp [hcomment]

/-- The walk through the text.  Without text to its right (`b` is off) it cuts the
white characters; a comment found on the way discards all that was found before. -/
theorem cropTail_text (t : List Char) {f : TailFlags} (hbnl : f.bnl = true)
    (hnul : ∀ c ∈ t, c ≠ '\x00') (cells : List Char)
    (hcells : f.b = false → stringOf cells = []) :
    stringOf (cropTail t.reverse f cells).2 =
        (match beforeComment t with
          | some code => code.rdropWhile isWhite
          | none => if f.b then t ++ stringOf cells else t.rdropWhile isWhite) ∧
      (cropTail t.reverse f cells).1.multl =
        match beforeComment t with
          | some _ => false
          | none => f.multl := by
  induction t using List.reverseRecOn generalizing f cells with
  | nil =>
      refine ⟨?_, rfl⟩
      cases hb : f.b with
      | true => rfl
      | false => exact hcells hb
  | append_singleton t c ih =>
      have hfront : ∀ c ∈ t, c ≠ '\x00' := fun c hc => hnul c (List.mem_append_left _ hc)
      have hc : c ≠ '\x00' := hnul c (List.mem_append_right _ (List.mem_singleton_self c))
      rw [cropTail_concat, tailStep_text hbnl, beforeComment_concat]
      by_cases hcomment : c = '#' ∧ (t.getLast? = some ' ' ∨ t.getLast? = some '\t')
      · -- What was found to the right is forgotten.
        rw [if_pos hcomment, if_pos hcomment]
        obtain ⟨hstring, hmultl⟩ := ih (f := ⟨false, true, false⟩) rfl hfront
          ('\x00' :: cells) (fun _ => rfl)
        rw [hstring, hmultl]
        cases beforeComment t with
        | some code => exact ⟨rfl, rfl⟩
        | none => exact ⟨rfl, rfl⟩
      · rw [if_neg hcomment, if_neg hcomment]
        cases hreg : regular f.b c with
        | false =>
            -- Still no text: the character is white, and cut.
            obtain ⟨hb, hregular⟩ : f.b = false ∧ regular false c = false := by
              cases hb : f.b with
              | true =>
                  rw [hb] at hreg
                  exact Bool.noConfusion (show true = false from hreg)
              | false => exact ⟨rfl, hb ▸ hreg⟩
            have hwhite : isWhite c = true := by rw [isWhite, hregular]; rfl
            obtain ⟨hstring, hmultl⟩ := ih (f := ⟨false, true, f.multl⟩) rfl hfront
              ('\x00' :: cells) (fun _ => rfl)
            simp only [Bool.false_eq_true, if_false]
            rw [hstring, hmultl]
            cases beforeComment t with
            | some code => exact ⟨rfl, rfl⟩
            | none =>
                simp only [hb, Bool.false_eq_true, if_false]
                rw [List.rdropWhile_concat_pos _ _ _ hwhite]
                exact ⟨rfl, trivial⟩
        | true =>
            obtain ⟨hstring, hmultl⟩ := ih (f := ⟨true, true, f.multl⟩) rfl hfront
              (c :: cells) (fun hb => Bool.noConfusion (show true = false from hb))
            simp only [if_true]
            rw [hstring, hmultl, stringOf_cons hc]
            cases beforeComment t with
            | some code => exact ⟨rfl, rfl⟩
            | none =>
                refine ⟨?_, rfl⟩
                cases hb : f.b with
                | true =>
                    simp only [if_true]
                    rw [List.append_assoc, List.singleton_append]
                | false =>
                    -- The first text from the right: what is behind it was cut.
                    have hwhite : ¬ isWhite c = true := by
                      rw [hb] at hreg
                      rw [isWhite, hreg]
                      exact Bool.false_ne_true
                    simp only [if_true, Bool.false_eq_true, if_false]
                    rw [hcells hb, List.rdropWhile_concat_neg _ _ _ hwhite]

/-- A character that is no line end and no backslash ends the search for one. -/
theorem tailStep_of_not_break {b multl : Bool} {c : Char} (hc : isBreak c = false)
    (prev : Option Char) :
    tailStep ⟨b, false, multl⟩ c prev = tailStep ⟨b, true, multl⟩ c prev := by
  have hends : (c != '\n' && c != '\r' && c != '\\') = true := by
    obtain ⟨hnl, hcr, hbackslash⟩ : c ≠ '\n' ∧ c ≠ '\r' ∧ c ≠ '\\' := by
      simpa [isBreak, isEol, and_assoc] using hc
    simp [hnl, hcr, hbackslash]
  unfold tailStep
  simp only [hends, Bool.or_true, Bool.not_true, Bool.false_and]

theorem openBreak_concat_break (t : List Char) {c : Char} (hc : isBreak c = true) :
    openBreak (t ++ [c]) = openBreak t ++ [if c = '\\' then ' ' else c] := by
  rw [openBreak, List.rdropWhile_concat_pos _ _ _ hc, List.rtakeWhile_concat_pos _ _ _ hc,
    List.map_append, List.map_singleton, ← List.append_assoc, openBreak]

theorem openBreak_of_last {t : List Char} {c : Char} (hc : isBreak c = false) :
    openBreak (t ++ [c]) = t ++ [c] := by
  have hneg : ¬ isBreak c = true := by rw [hc]; exact Bool.false_ne_true
  rw [openBreak, List.rdropWhile_concat_neg _ _ _ hneg, List.rtakeWhile_concat_neg _ _ _ hneg,
    List.map_nil, List.append_nil]

/-- The walk through the trailing run of backslashes, once one has been met. -/
theorem cropTail_break (t : List Char) (hnul : ∀ c ∈ t, c ≠ '\x00') (cells : List Char) :
    stringOf (cropTail t.reverse ⟨true, false, true⟩ cells).2 =
        (match beforeComment t with
          | some code => code.rdropWhile isWhite
          | none => openBreak t ++ stringOf cells) ∧
      (cropTail t.reverse ⟨true, false, true⟩ cells).1.multl =
        match beforeComment t with
          | some _ => false
          | none => true := by
  induction t using List.reverseRecOn generalizing cells with
  | nil => exact ⟨rfl, rfl⟩
  | append_singleton t c ih =>
      have hfront : ∀ c ∈ t, c ≠ '\x00' := fun c hc => hnul c (List.mem_append_left _ hc)
      cases hbreak : isBreak c with
      | true =>
          have hkinds : c = '\n' ∨ c = '\r' ∨ c = '\\' := by
            simpa [isBreak, isEol, or_assoc] using hbreak
          have hcomment : c ≠ '#' := by
            rintro rfl
            exact absurd hbreak (by decide)
          have hturn : tailStep ⟨true, false, true⟩ c t.getLast? =
              (⟨true, false, true⟩, if c = '\\' then ' ' else c) := by
            rcases hkinds with rfl | rfl | rfl <;> rfl
          have hkept : (if c = '\\' then ' ' else c) ≠ '\x00' := by
            rcases hkinds with rfl | rfl | rfl <;> decide
          obtain ⟨hstring, hmultl⟩ := ih hfront ((if c = '\\' then ' ' else c) :: cells)
          rw [cropTail_concat, hturn, beforeComment_concat_of_ne t hcomment, hstring, hmultl,
            stringOf_cons hkept, openBreak_concat_break t hbreak, List.append_assoc,
            List.singleton_append]
          exact ⟨rfl, rfl⟩
      | false =>
          have htext := cropTail_text (t ++ [c]) (f := ⟨true, true, true⟩) rfl hnul cells
            (fun hb => Bool.noConfusion (show true = false from hb))
          rw [cropTail_concat, ← tailStep_of_not_break hbreak, ← cropTail_concat] at htext
          rw [openBreak_of_last hbreak]
          exact htext

theorem isWhite_of_isEol {c : Char} (hc : isEol c = true) : isWhite c = true := by
  have hkinds : c = '\n' ∨ c = '\r' := by simpa [isEol] using hc
  rcases hkinds with rfl | rfl <;> rfl

/-- A line end at the end of the line leaves no trace. -/
theorem documentedTail_concat_eol (t : List Char) {c : Char} (hc : isEol c = true) :
    documentedTail (t ++ [c]) = documentedTail t := by
  have hwhite := isWhite_of_isEol hc
  have hcomment : c ≠ '#' := by
    rintro rfl
    exact absurd hc (by decide)
  rw [documentedTail, beforeComment_concat_of_ne t hcomment, List.rdropWhile_concat_pos _ _ _ hc,
    List.rdropWhile_concat_pos _ _ _ hwhite, documentedTail]

/-- The walk from the end of the line is the documented tail. -/
theorem cropTail_end (t : List Char) (hnul : ∀ c ∈ t, c ≠ '\x00') {cells : List Char}
    (hcells : stringOf cells = []) :
    stringOf (cropTail t.reverse ⟨false, false, false⟩ cells).2 = (documentedTail t).1 ∧
      (cropTail t.reverse ⟨false, false, false⟩ cells).1.multl = (documentedTail t).2 := by
  induction t using List.reverseRecOn generalizing cells with
  | nil => exact ⟨hcells, rfl⟩
  | append_singleton t c ih =>
      have hfront : ∀ c ∈ t, c ≠ '\x00' := fun c hc => hnul c (List.mem_append_left _ hc)
      cases hbreak : isBreak c with
      | true =>
          have hcomment : c ≠ '#' := by
            rintro rfl
            exact absurd hbreak (by decide)
          cases heol : isEol c with
          | true =>
              have hkinds : c = '\n' ∨ c = '\r' := by simpa [isEol] using heol
              have hturn : tailStep ⟨false, false, false⟩ c t.getLast? =
                  (⟨false, false, false⟩, '\x00') := by
                rcases hkinds with rfl | rfl <;> rfl
              rw [cropTail_concat, hturn, documentedTail_concat_eol t heol]
              exact ih hfront rfl
          | false =>
              obtain rfl : c = '\\' := by
                rw [isBreak, heol] at hbreak
                simpa using hbreak
              have hturn : tailStep ⟨false, false, false⟩ '\\' t.getLast? =
                  (⟨true, false, true⟩, ' ') := rfl
              have hlast : ((t ++ ['\\']).rdropWhile isEol).getLast? = some '\\' := by
                rw [List.rdropWhile_concat_neg _ _ _ (by decide)]
                simp
              obtain ⟨hstring, hmultl⟩ := cropTail_break t hfront (' ' :: cells)
              rw [cropTail_concat, hturn, hstring, hmultl, documentedTail,
                beforeComment_concat_of_ne t hcomment, if_pos hlast,
                List.rdropWhile_concat_neg _ _ _ (by decide),
                openBreak_concat_break t (by decide), stringOf_cons (by decide), hcells]
              cases beforeComment t with
              | some code => exact ⟨rfl, rfl⟩
              | none => exact ⟨rfl, rfl⟩
      | false =>
          have heol : ¬ isEol c = true := by
            intro heol
            rw [isBreak, heol] at hbreak
            exact Bool.noConfusion (show true = false from hbreak)
          have hlast : ¬ ((t ++ [c]).rdropWhile isEol).getLast? = some '\\' := by
            rw [List.rdropWhile_concat_neg _ _ _ heol]
            intro hlast
            have hc : c = '\\' := by simpa using hlast
            rw [hc] at hbreak
            exact absurd hbreak (by decide)
          have htext := cropTail_text (t ++ [c]) (f := ⟨false, true, false⟩) rfl hnul cells
            (fun _ => hcells)
          rw [cropTail_concat, ← tailStep_of_not_break hbreak, ← cropTail_concat] at htext
          rw [htext.1, htext.2, documentedTail, if_neg hlast]
          cases beforeComment (t ++ [c]) with
          | some code => exact ⟨rfl, rfl⟩
          | none => exact ⟨rfl, rfl⟩

/-! ## The whole function -/

/-- What both loops make of the characters they look at. -/
theorem trimLoops_eq (s : List Char) (hnul : ∀ c ∈ s, c ≠ '\x00') :
    match trimHead s false [] with
    | none => documentedLine s = ([], false)
    | some out =>
        ∀ behind, documentedLine s =
          (stringOf (cropTail out.reverse ⟨false, false, false⟩ ('\x00' :: behind)).2,
            (cropTail out.reverse ⟨false, false, false⟩ ('\x00' :: behind)).1.multl) := by
  have hrest : ∀ c ∈ s.dropWhile isWhite, c ≠ '\x00' :=
    fun c hc => hnul c ((List.dropWhile_sublist _).mem hc)
  rw [trimHead_eq]
  by_cases hcomment : (s.dropWhile isWhite).head? = some '#'
  · rw [if_pos hcomment]
    exact if_pos (Or.inr hcomment)
  · rw [if_neg hcomment]
    intro behind
    have hbehind : stringOf ('\x00' :: behind) = [] := rfl
    obtain ⟨hstring, hmultl⟩ := cropTail_end (s.dropWhile isWhite) hrest hbehind
    rw [hstring, hmultl, documentedLine]
    by_cases hempty : s.dropWhile isWhite = []
    · rw [if_pos (Or.inl hempty), hempty]
      rfl
    · rw [if_neg (fun h => h.elim hempty hcomment)]

theorem length_rdropWhile_le (p : Char → Bool) (t : List Char) :
    (t.rdropWhile p).length ≤ t.length :=
  (List.rdropWhile_prefix p t).length_le

theorem length_openBreak (t : List Char) : (openBreak t).length = t.length := by
  have hall := congrArg List.length (List.rdropWhile_append_rtakeWhile (p := isBreak) (l := t))
  rw [List.length_append] at hall
  rw [openBreak, List.length_append, List.length_map, hall]

theorem length_beforeComment_le {t code : List Char} (h : beforeComment t = some code) :
    code.length ≤ t.length := by
  induction t using List.reverseRecOn generalizing code with
  | nil => cases h
  | append_singleton t c ih =>
      rw [beforeComment_concat] at h
      rw [List.length_append, List.length_singleton]
      cases hfront : beforeComment t with
      | some code' =>
          rw [hfront] at h
          obtain rfl := Option.some.inj h
          have := ih hfront
          omega
      | none =>
          simp only [hfront] at h
          split at h
          · obtain rfl := Option.some.inj h
            omega
          · cases h

/-- The documented line is never longer than the line. -/
theorem length_documentedLine_le (s : List Char) : (documentedLine s).1.length ≤ s.length := by
  have hhead := (List.dropWhile_sublist (l := s) isWhite).length_le
  rw [documentedLine]
  split
  · exact Nat.zero_le _
  · rw [documentedTail]
    split
    · rename_i code hcode
      have hcut := length_beforeComment_le hcode
      exact Nat.le_trans (length_rdropWhile_le isWhite code) (Nat.le_trans hcut hhead)
    · split
      · rw [length_openBreak]
        exact Nat.le_trans (length_rdropWhile_le isEol _) hhead
      · exact Nat.le_trans (length_rdropWhile_le isWhite _) hhead

/-- On lines whose length an `int` counts, with the NUL, `trim` looks at the
first `toInt |s|` characters and leaves their documented line. -/
theorem trim_eq (dm : DataModel) (s : CString) (hpos : 0 < toInt s.strlen)
    (hint : toInt s.strlen < intMax) :
    ∃ r, trim dm s = .ok r ∧
      r.s.chars = (documentedLine (s.chars.take (toInt s.strlen).toNat)).1 ∧
      r.ret = r.s.strlen ∧
      r.multiline = some (documentedLine (s.chars.take (toInt s.strlen).toNat)).2 := by
  have hmax : intMax = 2147483647 := rfl
  have hsize : toSize dm (toInt s.strlen + 1) = (toInt s.strlen + 1).toNat :=
    toSize_of_range dm (by omega) (by omega)
  have hlimit : 2147483647 ≤ ptrdiffMax dm := by cases dm <;> decide
  have hnul : ∀ c ∈ s.chars.take (toInt s.strlen).toNat, c ≠ '\x00' :=
    fun c hc => s.noNul c (List.mem_of_mem_take hc)
  have hloops := trimLoops_eq _ hnul
  rw [trim, if_neg (by omega), signed_of_range (by omega) (by omega), ok_bind, hsize,
    if_neg (by omega), if_neg (by omega)]
  cases hhead : trimHead (s.chars.take (toInt s.strlen).toNat) false [] with
  | none =>
      rw [hhead] at hloops
      simp only at hloops
      exact ⟨_, rfl, by rw [hloops]; rfl, rfl, by rw [hloops]⟩
  | some out =>
      rw [hhead] at hloops
      simp only at hloops
      specialize hloops (s.cells.drop (out.length + 1))
      exact ⟨_, rfl, by rw [hloops]; rfl, rfl, by rw [hloops]⟩

/-- A line whose length an `int` holds is looked at as a whole. -/
theorem trim_short (dm : DataModel) {s : CString} (hne : s.strlen ≠ 0)
    (hint : (s.strlen : Int) < intMax) :
    ∃ r, trim dm s = .ok r ∧ r.s.chars = (documentedLine s.chars).1 ∧
      r.ret = r.s.strlen ∧ r.multiline = some (documentedLine s.chars).2 := by
  have hlen : toInt s.strlen = s.strlen := toInt_of_range (by omega) (by omega)
  have hall : s.chars.take (s.strlen : Int).toNat = s.chars :=
    List.take_of_length_le (Nat.le_refl _)
  have htrim := trim_eq dm s (by omega) (by omega)
  rwa [hlen, hall] at htrim

/-- On every other line it leaves the string alone, or does not return. -/
theorem trim_untouched (dm : DataModel) (s : CString)
    (hout : ¬ (0 < toInt s.strlen ∧ toInt s.strlen < intMax)) {r : Trimmed}
    (h : trim dm s = .ok r) : r.multiline = none := by
  have hmax : intMax = 2147483647 := rfl
  have hlow := le_toInt s.strlen
  have hhigh := toInt_le s.strlen
  rw [trim] at h
  split at h
  · rw [← Except.ok.inj h]
  · rename_i hne
    obtain ⟨size, hsize, hrest⟩ := bind_eq_ok h
    have heq := signed_eq hsize
    have hfull : toInt s.strlen ≠ intMax := by
      intro hfull
      rw [hfull, signed, if_neg (by omega)] at hsize
      cases hsize
    split at hrest
    · rw [← Except.ok.inj hrest]
    · rename_i hfits
      split at hrest
      · cases hrest
      · rename_i hnonzero
        -- A negative size is a huge one, except for the size zero.
        exfalso
        have hneg : toInt s.strlen < 0 := by omega
        subst heq
        cases dm with
        | ilp32 =>
            simp only [toSize, ptrdiffMax, DataModel.sizeBits] at hfits hnonzero
            omega
        | lp64 =>
            simp only [toSize, ptrdiffMax, DataModel.sizeBits] at hfits hnonzero
            omega

/-! ## The array -/

/-- The second loop changes only what it visits. -/
theorem cropTail_cells (chars : List Char) (f : TailFlags) (cells : List Char) :
    ∃ visited, (cropTail chars f cells).2 = visited ++ cells ∧
      visited.length = chars.length := by
  induction chars generalizing f cells with
  | nil => exact ⟨[], rfl, rfl⟩
  | cons c rest ih =>
      obtain ⟨visited, hcells, hlen⟩ := ih (tailStep f c rest.head?).1
        ((tailStep f c rest.head?).2 :: cells)
      refine ⟨visited ++ [(tailStep f c rest.head?).2], ?_, ?_⟩
      · rw [cropTail, hcells, List.append_assoc, List.singleton_append]
      · rw [List.length_append, hlen, List.length_singleton, List.length_cons]

/-- Behind a copy into the array of a string stands the end of that array. -/
theorem cells_of_copy (s : CString) (chars : List Char) (hlen : chars.length ≤ s.strlen) :
    ∃ all, chars ++ '\x00' :: s.cells.drop (chars.length + 1) = all ++ ['\x00'] ∧
      all.length = s.strlen := by
  rw [CString.strlen] at hlen ⊢
  rcases Nat.eq_or_lt_of_le hlen with heq | hlt
  · refine ⟨chars, ?_, heq⟩
    rw [List.drop_eq_nil_of_le (by rw [CString.length_cells, CString.strlen]; omega)]
  · refine ⟨chars ++ '\x00' :: s.chars.drop (chars.length + 1), ?_, ?_⟩
    · rw [CString.cells, List.drop_append_of_le_length hlt, List.append_assoc, List.cons_append]
    · rw [List.length_append, List.length_cons, List.length_drop]
      omega

/-- `trim` stays within the array of its line, and leaves the NUL at the end. -/
theorem trim_cells {dm : DataModel} {s : CString} {r : Trimmed} (h : trim dm s = .ok r) :
    ∃ chars, r.cells = chars ++ ['\x00'] ∧ chars.length = s.strlen := by
  have hsame : ∃ chars, s.cells = chars ++ ['\x00'] ∧ chars.length = s.strlen :=
    ⟨s.chars, rfl, rfl⟩
  rw [trim] at h
  split at h
  · rw [← Except.ok.inj h]
    exact hsame
  · obtain ⟨size, _, h⟩ := bind_eq_ok h
    split at h
    · rw [← Except.ok.inj h]
      exact hsame
    · split at h
      · cases h
      · split at h
        · rw [← Except.ok.inj h]
          exact cells_of_copy s [] (Nat.zero_le _)
        · rename_i out hout
          have hlen : out.length ≤ s.strlen := by
            rw [trimHead_eq] at hout
            split at hout
            · cases hout
            · rw [← Option.some.inj hout]
              exact Nat.le_trans (List.dropWhile_sublist _).length_le (List.length_take_le' _ _)
          rw [← Except.ok.inj h]
          obtain ⟨visited, hcells, hvisited⟩ := cropTail_cells out.reverse ⟨false, false, false⟩
            ('\x00' :: s.cells.drop (out.length + 1))
          rw [List.length_reverse] at hvisited
          rw [hcells, ← hvisited]
          exact cells_of_copy s visited (hvisited ▸ hlen)

/-! ## Main result -/

/-- `trim` leaves the documented line, stores whether it goes on, returns its
length, and makes it no longer. -/
def TrimDocumented (dm : DataModel) (s : CString) : Prop :=
  ∃ r, trim dm s = .ok r ∧
    r.s.chars = (documentedLine s.chars).1 ∧
    r.multiline = some (documentedLine s.chars).2 ∧
    r.ret = r.s.strlen ∧
    r.s.strlen ≤ s.strlen

/-- The lengths for which the documented line comes out: an `int` counts the line
and its NUL, and what it does not count of the line changes nothing. -/
theorem trim_documented_iff (dm : DataModel) (s : CString) :
    TrimDocumented dm s ↔
      (0 < toInt s.strlen ∧ toInt s.strlen < intMax) ∧
        documentedLine (s.chars.take (toInt s.strlen).toNat) = documentedLine s.chars := by
  constructor
  · rintro ⟨r, hr, hchars, hmultiline, _⟩
    have hrange : 0 < toInt s.strlen ∧ toInt s.strlen < intMax := by
      by_contra hout
      rw [trim_untouched dm s hout hr] at hmultiline
      cases hmultiline
    refine ⟨hrange, ?_⟩
    obtain ⟨r', hr', hchars', _, hmultiline'⟩ := trim_eq dm s hrange.1 hrange.2
    obtain rfl := Except.ok.inj (hr.symm.trans hr')
    exact Prod.ext (hchars'.symm.trans hchars)
      (Option.some.inj (hmultiline'.symm.trans hmultiline))
  · rintro ⟨⟨hpos, hint⟩, hsame⟩
    obtain ⟨r, hr, hchars, hret, hmultiline⟩ := trim_eq dm s hpos hint
    rw [hsame] at hchars hmultiline
    refine ⟨r, hr, hchars, hmultiline, hret, ?_⟩
    rw [CString.strlen, hchars]
    exact length_documentedLine_le s.chars

/-- A string of 2^31 characters has a negative length: nothing is trimmed, and 0
is returned. -/
theorem trim_negative_length (dm : DataModel) (s : CString) (hlen : s.strlen = 2147483648) :
    ¬ TrimDocumented dm s := by
  have hneg : toInt s.strlen < 0 := by
    rw [hlen]
    unfold toInt
    decide
  rintro ⟨r, hr, _, hmultiline, _⟩
  rw [trim_untouched dm s (by omega) hr] at hmultiline
  cases hmultiline

/-- The letter `a` repeated. -/
def lettersA (n : Nat) : CString where
  chars := List.replicate n 'a'
  noNul := fun c hc => by
    rw [List.eq_of_mem_replicate hc]
    decide

theorem trim_fails : ¬ TrimDocumented .lp64 (lettersA 2147483648) :=
  trim_negative_length .lp64 _ List.length_replicate

end IrBridge.Config
