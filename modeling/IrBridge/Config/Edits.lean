/-
  Config/Edits.lean --- edits that leave the configuration as it is.

  A line that says nothing can be inserted anywhere, a comment can be appended to
  a line, and a line can be cut between two words.  An edit works on the lines of
  the file; what it does to one line is said with the documented line, and that
  the whole file then says the same follows from the joiner: it does not see lines
  that say nothing, nor how a line was cut into pieces.

  Carriage returns at the end of a line count with the line end, so a comment is
  appended safely when the line, these aside, does not end in a backslash.
-/
import IrBridge.Config.Documented
import IrBridge.Config.Readconf
import Mathlib.Logic.Relation

set_option autoImplicit false

namespace IrBridge.Config

open IrBridge.Foundation
open IrBridge.Platform

/-! ## Edits -/

/-- The lines of a file, without their newlines.  The last one has none. -/
def linesOf (text : List Char) : List (List Char) := text.splitOn '\n'

/-- No comment starts in the line. -/
def NoComment (l : List Char) : Prop :=
  (l.dropWhile isWhite).head? ≠ some '#' ∧ beforeComment l = none

/-- An edit of the lines of a file.  A comment can be appended to a line, before
its terminator, where `mayComment` says so. -/
inductive Edit (mayComment : List Char → List Char → Prop) :
    List (List Char) → List (List Char) → Prop where
  /-- a whole line is inserted -/
  | insert (before after : List (List Char)) {l : List Char} (hpassed : PassedOver l) :
      Edit mayComment (before ++ after) (before ++ l :: after)
  /-- a comment is appended -/
  | comment (before after : List (List Char)) (l terminator text : List Char) {blank : Char}
      (hmay : mayComment l terminator) (hblank : isBlank blank = true) :
      Edit mayComment (before ++ (l ++ terminator) :: after)
        (before ++ (l ++ blank :: '#' :: (text ++ terminator)) :: after)
  /-- the space between a word that ends in `c` and one that starts with `d`
  becomes a backslash and a newline -/
  | cut (before after : List (List Char)) (front back blanks : List Char) {c d : Char}
      (hcomment : NoComment (front ++ [c])) (hc : isWhite c = false) (hbackslash : c ≠ '\\')
      (hd : isWhite d = false) (hhash : d ≠ '#') (hblanks : ∀ b ∈ blanks, isBlank b = true) :
      Edit mayComment (before ++ (front ++ [c] ++ ' ' :: d :: back) :: after)
        (before ++ (front ++ [c] ++ ['\\']) :: (blanks ++ d :: back) :: after)

/-- The terminator is a run of carriage returns, before the newline, and the line
does not end in a backslash, carriage returns aside. -/
def NoBackslash (l terminator : List Char) : Prop :=
  (∀ c ∈ terminator, c = '\r') ∧ (l.rdropWhile isEol).getLast? ≠ some '\\'

/-- The sizes within which a file is read as a whole. -/
structure Fits (text : CString) : Prop where
  short : ∀ l ∈ linesOf text.chars, l.length ≤ 254
  joined : LinesFit text.chars

/-! ## What an edit does to a line -/

/-- A comment is appended to a line that does not go on. -/
theorem documentedLine_comment {l terminator : List Char} (hmay : NoBackslash l terminator)
    {blank : Char} (hblank : isBlank blank = true) (text : List Char) :
    documentedLine (l ++ blank :: '#' :: (text ++ terminator)) =
      documentedLine (l ++ terminator) := by
  obtain ⟨hterminator, hlast⟩ := hmay
  have hends : ∀ c ∈ terminator, isEol c = true := fun c hc => by rw [hterminator c hc]; rfl
  have hwhite := isWhite_of_isBlank hblank
  rw [documentedLine_append_eol l hends]
  by_cases hempty : l.dropWhile isWhite = []
  · -- Only the comment is left of the line.
    have hhead : (l ++ blank :: '#' :: (text ++ terminator)).dropWhile isWhite =
        '#' :: (text ++ terminator) := by
      rw [List.dropWhile_append, hempty]
      show List.dropWhile isWhite _ = _
      rw [List.dropWhile_cons_of_pos hwhite]
      rfl
    rw [documentedLine_of_passedOver (Or.inl hempty), documentedLine_of_passedOver]
    exact Or.inr (by rw [hhead]; rfl)
  · by_cases hpassed : PassedOver l
    · rw [documentedLine_of_passedOver hpassed,
        documentedLine_of_passedOver ((passedOver_append hempty _).mpr hpassed)]
    · rw [documentedLine_of_text hpassed,
        documentedLine_of_text (mt (passedOver_append hempty _).mp hpassed),
        dropWhile_append_of_ne_nil isWhite hempty]
      have hlastTail : ¬ ((l.dropWhile isWhite).rdropWhile isEol).getLast? = some '\\' := by
        intro hbackslash
        have hall : l.rdropWhile isEol =
            l.takeWhile isWhite ++ (l.dropWhile isWhite).rdropWhile isEol := by
          rw [← rdropWhile_append_of_ne_nil, List.takeWhile_append_dropWhile]
          intro hnil
          rw [hnil] at hbackslash
          cases hbackslash
        rw [hall, List.getLast?_append, hbackslash] at hlast
        exact hlast rfl
      generalize l.dropWhile isWhite = t at hlastTail
      rw [documentedTail, documentedTail]
      cases hcode : beforeComment t with
      | some code => rw [beforeComment_append hcode]
      | none =>
          rw [beforeComment_comment hcode hblank]
          simp only [if_neg hlastTail]
          rw [List.rdropWhile_concat_pos _ _ _ hwhite]

section Cut

variable {c d : Char} {front back blanks : List Char}

/-- A line that is cut between two words says the same in two pieces. -/
theorem pieceOf_cut (hcomment : NoComment (front ++ [c])) (hc : isWhite c = false)
    (hbackslash : c ≠ '\\') (hd : isWhite d = false) (hhash : d ≠ '#')
    (hblanks : ∀ b ∈ blanks, isBlank b = true) :
    ∃ first second goesOn,
      pieceOf (front ++ [c] ++ ' ' :: d :: back) = some (first ++ second, goesOn) ∧
      pieceOf (front ++ [c] ++ ['\\']) = some (first, true) ∧
      pieceOf (blanks ++ d :: back) = some (second, goesOn) := by
  have hbreak : isBreak c = false := by
    rw [isBreak, isEol_of_not_white hc]
    simpa using hbackslash
  -- The words of the front, from the first one on, end in `c` as well.
  obtain ⟨t, ht⟩ : ∃ t, (front ++ [c]).dropWhile isWhite = t ++ [c] := by
    by_cases hfront : front.dropWhile isWhite = []
    · refine ⟨[], ?_⟩
      rw [List.dropWhile_append, hfront]
      exact List.dropWhile_cons_of_neg (Bool.eq_false_iff.mp hc)
    · exact ⟨_, dropWhile_append_of_ne_nil isWhite hfront [c]⟩
  have hne : (front ++ [c]).dropWhile isWhite ≠ [] := by
    rw [ht]
    exact List.append_ne_nil_of_right_ne_nil _ (List.cons_ne_nil _ _)
  have hpassed : ¬ PassedOver (front ++ [c]) := fun h => h.elim hne hcomment.1
  have htail : beforeComment (t ++ [c]) = none := by
    rw [← ht]
    apply beforeComment_of_append ((front ++ [c]).takeWhile isWhite)
    rw [List.takeWhile_append_dropWhile]
    exact hcomment.2
  have hwhole : documentedLine (front ++ [c] ++ ' ' :: d :: back) =
      (t ++ [c] ++ [' '] ++ (documentedTail (d :: back)).1, (documentedTail (d :: back)).2) := by
    rw [documentedLine_of_text (mt (passedOver_append hne _).mp hpassed),
      dropWhile_append_of_ne_nil isWhite hne, ht, documentedTail_space htail hd hhash,
      List.append_assoc (t ++ [c]), List.singleton_append]
  have hfirst : documentedLine (front ++ [c] ++ ['\\']) = (t ++ [c] ++ [' '], true) := by
    rw [documentedLine_of_text (mt (passedOver_append hne _).mp hpassed),
      dropWhile_append_of_ne_nil isWhite hne, ht, documentedTail_backslash htail hbreak]
  have hsecond : documentedLine (blanks ++ d :: back) = documentedTail (d :: back) := by
    have hword : (blanks ++ d :: back).dropWhile isWhite = d :: back := by
      rw [List.dropWhile_append_of_pos fun b hb => isWhite_of_isBlank (hblanks b hb),
        List.dropWhile_cons_of_neg (Bool.eq_false_iff.mp hd)]
    rw [documentedLine_of_text, hword]
    rw [PassedOver, hword]
    rintro (hnil | hhead)
    · cases hnil
    · exact hhash (Option.some.inj hhead)
  refine ⟨t ++ [c] ++ [' '], (documentedTail (d :: back)).1, (documentedTail (d :: back)).2,
    ?_, ?_, ?_⟩
  · rw [pieceOf, hwhole, if_neg (by simp)]
  · rw [pieceOf, hfirst, if_neg (by simp)]
  · rw [pieceOf, hsecond, if_neg (documentedTail_ne_nil hd)]

end Cut

/-! ## What it does to the file -/

theorem pieceOf_insert {l : List Char} (h : PassedOver l) : pieceOf l = none := by
  rw [pieceOf, documentedLine_of_passedOver h, if_pos rfl]

theorem pieceOf_comment {l terminator : List Char} (hmay : NoBackslash l terminator)
    {blank : Char} (hblank : isBlank blank = true) (text : List Char) :
    pieceOf (l ++ blank :: '#' :: (text ++ terminator)) = pieceOf (l ++ terminator) := by
  rw [pieceOf, documentedLine_comment hmay hblank, ← pieceOf]

/-- An edit leaves the lines that are joined as they are. -/
theorem run_edit {lines lines' : List (List Char)} (hedit : Edit NoBackslash lines lines')
    (acc : List Char) :
    Joining.machine.run acc (lines'.filterMap pieceOf) =
      Joining.machine.run acc (lines.filterMap pieceOf) := by
  cases hedit with
  | insert before after hpassed =>
      rw [List.filterMap_append, List.filterMap_append,
        List.filterMap_cons_none (pieceOf_insert hpassed)]
  | comment before after l terminator text hmay hblank =>
      rw [List.filterMap_append, List.filterMap_append, List.filterMap_cons, List.filterMap_cons,
        pieceOf_comment hmay hblank]
  | cut before after front back blanks hcomment hc hbackslash hd hhash hblanks =>
      obtain ⟨first, second, goesOn, hwhole, hfirst, hsecond⟩ :=
        pieceOf_cut hcomment hc hbackslash hd hhash hblanks
      rw [List.filterMap_append, List.filterMap_append, List.filterMap_cons_some hwhole,
        List.filterMap_cons_some hfirst, List.filterMap_cons_some hsecond,
        Transducer.run_append, Transducer.run_append, Joining.run_cut]

/-- So do any number of them. -/
theorem run_edits {lines lines' : List (List Char)}
    (hedits : Relation.ReflTransGen (Edit NoBackslash) lines lines') :
    Joining.machine.run [] (lines'.filterMap pieceOf) =
      Joining.machine.run [] (lines.filterMap pieceOf) := by
  induction hedits with
  | refl => rfl
  | tail _ hedit ih => rw [run_edit hedit, ih]

/-- `fgets` reads a file line by line when its lines are short: the newlines leave
no trace. -/
theorem pieces_of_lines (text read : List Char)
    (hshort : ∀ l ∈ text.splitOnPPrepend (· == '\n') read.reverse, l.length ≤ 254) :
    (fgets filelineSize text read).filterMap pieceOf =
      (text.splitOnPPrepend (· == '\n') read.reverse).filterMap pieceOf := by
  induction text generalizing read with
  | nil =>
      rw [fgets, List.splitOnPPrepend_nil, List.reverse_reverse]
      split
      · rename_i hempty
        rw [hempty]
        rfl
      · rfl
  | cons c text ih =>
      rw [fgets]
      by_cases hnewline : c = '\n'
      · subst hnewline
        have hread : pieceOf (read ++ ['\n']) = pieceOf read := by
          have hends : ∀ c ∈ ['\n'], isEol c = true := List.forall_mem_singleton.mpr rfl
          rw [pieceOf, documentedLine_append_eol read hends, ← pieceOf]
        rw [List.splitOnPPrepend_cons_pos rfl, List.reverse_reverse] at hshort ⊢
        rw [if_pos (Or.inl rfl), List.filterMap_cons, List.filterMap_cons, hread]
        have hrest := ih [] fun l hl => hshort l (List.mem_cons_of_mem _ hl)
        rw [List.reverse_nil, List.splitOnPPrepend_nil_right] at hrest
        rw [hrest]
      · have hother : (c == '\n') = false := by simpa using hnewline
        have hnext : c :: read.reverse = (read ++ [c]).reverse := by simp
        rw [List.splitOnPPrepend_cons_neg (p := (· == '\n')) hother, hnext] at hshort ⊢
        have hroom : ¬ (c = '\n' ∨ read.length + 2 = filelineSize) := by
          rintro (h | hfull)
          · exact hnewline h
          · -- The line would be longer than 254 characters.
            rw [List.splitOnPPrepend_eq_modifyHead] at hshort
            obtain ⟨l, ls, hls⟩ := List.exists_cons_of_ne_nil
              (List.splitOnP_ne_nil (· == '\n') text)
            rw [hls, List.modifyHead_cons] at hshort
            have hlen := hshort _ List.mem_cons_self
            rw [List.reverse_reverse, List.length_append, List.length_append,
              List.length_singleton] at hlen
            rw [filelineSize] at hfull
            omega
        rw [if_neg hroom]
        exact ih (read ++ [c]) hshort

/-- The pieces of a file are its lines. -/
theorem piecesOf_eq {text : CString} (hfits : Fits text) :
    piecesOf text.chars = (linesOf text.chars).filterMap pieceOf :=
  pieces_of_lines text.chars [] hfits.short

/-! ## Main result -/

/-- No number of edits changes what `readconf` makes of a file, if the file fits
before and after them. -/
theorem edits_transparent (dm : DataModel) {text text' : CString}
    (hedits : Relation.ReflTransGen (Edit NoBackslash) (linesOf text.chars)
      (linesOf text'.chars))
    (hfits : Fits text) (hfits' : Fits text') :
    readconf dm (some text') = readconf dm (some text) := by
  have hrun := run_edits hedits
  rw [readconf_eq dm hfits.joined, readconf_eq dm hfits'.joined, entriesOf, entriesOf,
    piecesOf_eq hfits, piecesOf_eq hfits', hrun]

/-- A comment line is put before `port 90`, which is then cut in two. -/
theorem edits_transparent_port :
    readconf .lp64 (some (CString.ofBuffer ['#', 'p', '\n', 'p', 'o', 'r', 't', '\\', '\n',
        '\t', '9', '0', '\n'])) =
      readconf .lp64 (some (CString.ofBuffer ['p', 'o', 'r', 't', ' ', '9', '0', '\n'])) := by
  have hinsert : Edit NoBackslash [['p', 'o', 'r', 't', ' ', '9', '0'], []]
      [['#', 'p'], ['p', 'o', 'r', 't', ' ', '9', '0'], []] :=
    .insert [] _ (Or.inr rfl)
  have hcut : Edit NoBackslash [['#', 'p'], ['p', 'o', 'r', 't', ' ', '9', '0'], []]
      [['#', 'p'], ['p', 'o', 'r', 't', '\\'], ['\t', '9', '0'], []] :=
    .cut [['#', 'p']] [[]] ['p', 'o', 'r'] ['0'] ['\t'] ⟨by decide, rfl⟩ rfl (by decide) rfl
      (by decide) (List.forall_mem_singleton.mpr rfl)
  exact edits_transparent .lp64 (.tail (.single hinsert) hcut)
    ⟨by decide +kernel, by decide +kernel⟩ ⟨by decide +kernel, by decide +kernel⟩

/-- The last character of a line is not a backslash; its terminator is `ends` and
a newline. -/
def LastNotBackslash (ends l terminator : List Char) : Prop :=
  terminator = ends ∧ l.getLast? ≠ some '\\'

/-- No number of edits changes what `readconf` makes of a file. -/
def EditsTransparent (mayComment : List Char → List Char → Prop) : Prop :=
  ∀ (dm : DataModel) (text text' : CString),
    Relation.ReflTransGen (Edit mayComment) (linesOf text.chars) (linesOf text'.chars) →
      Fits text → Fits text' → readconf dm (some text') = readconf dm (some text)

/-- `port \`, a carriage return and `90` on the next line. -/
def continuedFile (ends : List Char) : CString :=
  CString.ofBuffer (['p', 'o', 'r', 't', ' ', '\\', '\r'] ++ ends ++ ['\n', '9', '0', '\n'])

/-- The same with a comment behind the carriage return. -/
def commentedFile (ends : List Char) : CString :=
  CString.ofBuffer (['p', 'o', 'r', 't', ' ', '\\', '\r'] ++ ' ' :: '#' :: ('x' :: ends) ++
    ['\n', '9', '0', '\n'])

/-- The line went on, and does not with the comment. -/
theorem comment_after_return_seen {ends : List Char} (hends : ends = [] ∨ ends = ['\r']) :
    ¬ EditsTransparent (LastNotBackslash ends) := by
  intro htransparent
  have hedit : Edit (LastNotBackslash ends) (linesOf (continuedFile ends).chars)
      (linesOf (commentedFile ends).chars) := by
    have hmay : LastNotBackslash ends ['p', 'o', 'r', 't', ' ', '\\', '\r'] ends :=
      ⟨rfl, by decide⟩
    have hblank : isBlank ' ' = true := rfl
    have hcomment := Edit.comment [] [['9', '0'], []] _ ends ['x'] hmay hblank
    rcases hends with rfl | rfl
    · exact hcomment
    · exact hcomment
  have hsame := htransparent .lp64 _ _ (.single hedit)
  rcases hends with rfl | rfl
  · exact absurd (hsame ⟨by decide +kernel, by decide +kernel⟩
      ⟨by decide +kernel, by decide +kernel⟩) (by decide +kernel)
  · exact absurd (hsame ⟨by decide +kernel, by decide +kernel⟩
      ⟨by decide +kernel, by decide +kernel⟩) (by decide +kernel)

/-- A carriage return hides the backslash, whether it belongs to the terminator or
not. -/
theorem comment_after_return_breaks :
    ¬ EditsTransparent (LastNotBackslash []) ∧ ¬ EditsTransparent (LastNotBackslash ['\r']) :=
  ⟨comment_after_return_seen (Or.inl rfl), comment_after_return_seen (Or.inr rfl)⟩

end IrBridge.Config
