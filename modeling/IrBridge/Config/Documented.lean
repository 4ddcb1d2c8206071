/-
  Config/Documented.lean --- facts on the documented line.

  What stands behind a part of a line rarely matters for it: a comment starts
  where it started, line ends leave no trace, and the part behind a space ends as
  it would on its own.  Text without comments and backslashes is what is left of
  it when only white characters stand around it.
-/
import IrBridge.Config.Trim

set_option autoImplicit false

namespace IrBridge.Config

/-! ## Where a comment starts -/

/-- What stands behind the start of a comment does not matter. -/
theorem beforeComment_append {t code : List Char} (h : beforeComment t = some code)
    (rest : List Char) : beforeComment (t ++ rest) = some code := by
  induction rest using List.reverseRecOn with
  | nil => rw [List.append_nil, h]
  | append_singleton rest c ih => rw [← List.append_assoc, beforeComment_concat, ih]

/-- Characters other than `#` open no comment. -/
theorem beforeComment_append_of_ne (t : List Char) {rest : List Char}
    (hrest : ∀ c ∈ rest, c ≠ '#') : beforeComment (t ++ rest) = beforeComment t := by
  induction rest using List.reverseRecOn with
  | nil => rw [List.append_nil]
  | append_singleton rest c ih =>
      rw [← List.append_assoc, beforeComment_concat_of_ne _ (hrest c (by simp)),
        ih fun c hc => hrest c (List.mem_append_left _ hc)]

/-- A comment starts where one is appended, unless one starts before. -/
theorem beforeComment_comment {t : List Char} (h : beforeComment t = none) {blank : Char}
    (hblank : isBlank blank = true) (rest : List Char) :
    beforeComment (t ++ blank :: '#' :: rest) = some (t ++ [blank]) := by
  have hkinds : blank = ' ' ∨ blank = '\t' := isBlank_iff.mp hblank
  have hne : blank ≠ '#' := by
    rintro rfl
    exact absurd hblank (by decide)
  have hstart : beforeComment (t ++ [blank] ++ ['#']) = some (t ++ [blank]) := by
    rw [beforeComment_concat, beforeComment_concat_of_ne t hne, h]
    simp only [List.getLast?_append, List.getLast?_singleton, Option.some_or, true_and,
      Option.some.injEq]
    rw [if_pos hkinds]
  have hparts : t ++ blank :: '#' :: rest = t ++ [blank] ++ ['#'] ++ rest := by simp
  rw [hparts, beforeComment_append hstart]

/-- The start of a comment in what follows a space. -/
theorem beforeComment_space {t : List Char} (h : beforeComment t = none) {v : List Char}
    (hv : v.head? ≠ some '#') :
    beforeComment (t ++ ' ' :: v) = (beforeComment v).map (t ++ ' ' :: ·) := by
  induction v using List.reverseRecOn with
  | nil =>
      rw [beforeComment_concat_of_ne t (by decide), h]
      rfl
  | append_singleton v c ih =>
      have hparts : t ++ ' ' :: (v ++ [c]) = t ++ ' ' :: v ++ [c] := by simp
      rw [hparts, beforeComment_concat, beforeComment_concat]
      cases v with
      | nil =>
          have hc : c ≠ '#' := by simpa using hv
          rw [ih (by simp)]
          simp [beforeComment, hc]
      | cons d v =>
          have hlast : (t ++ ' ' :: d :: v).getLast? = (d :: v).getLast? := by
            simp [List.getLast?_cons]
          rw [ih (by simpa using hv), hlast]
          cases beforeComment (d :: v) with
          | some code => rfl
          | none =>
              simp only [Option.map_none]
              split <;> rfl

/-- A comment starts after a character. -/
theorem beforeComment_eq_cons {d : Char} {back code : List Char}
    (h : beforeComment (d :: back) = some code) : ∃ rest, code = d :: rest := by
  cases back with
  | nil => cases h
  | cons e back =>
      rw [beforeComment] at h
      split at h
      · exact ⟨[], (Option.some.inj h).symm⟩
      · obtain ⟨rest, _, hcode⟩ := Option.map_eq_some_iff.mp h
        exact ⟨rest, hcode.symm⟩

theorem beforeComment_of_append (lead : List Char) {t : List Char}
    (h : beforeComment (lead ++ t) = none) : beforeComment t = none := by
  induction lead with
  | nil => exact h
  | cons c lead ih =>
      apply ih
      cases hrest : lead ++ t with
      | nil => rfl
      | cons d rest =>
          rw [List.cons_append, hrest, beforeComment] at h
          split at h
          · cases h
          · exact Option.map_eq_none_iff.mp h

/-! ## The ends of a line -/

theorem dropWhile_append_of_ne_nil (p : Char → Bool) {l : List Char} (hne : l.dropWhile p ≠ [])
    (rest : List Char) : (l ++ rest).dropWhile p = l.dropWhile p ++ rest := by
  rw [List.dropWhile_append, if_neg]
  rwa [List.isEmpty_iff]

theorem rdropWhile_append_of_ne_nil (p : Char → Bool) (l : List Char) {rest : List Char}
    (hne : rest.rdropWhile p ≠ []) : (l ++ rest).rdropWhile p = l ++ rest.rdropWhile p := by
  rw [List.rdropWhile, List.reverse_append, dropWhile_append_of_ne_nil, List.reverse_append,
    List.reverse_reverse, List.rdropWhile]
  exact fun hnil => hne (congrArg List.reverse hnil)

theorem rdropWhile_cons_ne_nil {p : Char → Bool} {d : Char} (hd : p d = false)
    (rest : List Char) : (d :: rest).rdropWhile p ≠ [] := by
  intro hnil
  have hall := List.rdropWhile_eq_nil_iff.mp hnil d List.mem_cons_self
  rw [hd] at hall
  exact absurd hall Bool.false_ne_true

theorem isEol_of_not_white {c : Char} (hc : isWhite c = false) : isEol c = false := by
  cases heol : isEol c with
  | false => rfl
  | true => rw [← hc, isWhite_of_isEol heol]

theorem isWhite_of_isBlank {c : Char} (hc : isBlank c = true) : isWhite c = true := by
  rcases isBlank_iff.mp hc with rfl | rfl <;> rfl

/-- A line that is blank or a comment. -/
def PassedOver (l : List Char) : Prop :=
  l.dropWhile isWhite = [] ∨ (l.dropWhile isWhite).head? = some '#'

theorem documentedLine_of_passedOver {l : List Char} (h : PassedOver l) :
    documentedLine l = ([], false) :=
  if_pos h

theorem documentedLine_of_text {l : List Char} (h : ¬ PassedOver l) :
    documentedLine l = documentedTail (l.dropWhile isWhite) :=
  if_neg h

/-- A line with more behind it is passed over when it was. -/
theorem passedOver_append {l : List Char} (hne : l.dropWhile isWhite ≠ []) (rest : List Char) :
    PassedOver (l ++ rest) ↔ PassedOver l := by
  obtain ⟨c, t, ht⟩ := List.exists_cons_of_ne_nil hne
  rw [PassedOver, PassedOver, dropWhile_append_of_ne_nil isWhite hne, ht]
  simp

theorem documentedTail_append_eol (t : List Char) {ends : List Char}
    (hends : ∀ c ∈ ends, isEol c = true) : documentedTail (t ++ ends) = documentedTail t := by
  induction ends using List.reverseRecOn with
  | nil => rw [List.append_nil]
  | append_singleton ends c ih =>
      rw [← List.append_assoc, documentedTail_concat_eol _ (hends c (by simp)),
        ih fun c hc => hends c (List.mem_append_left _ hc)]

/-- The line end leaves no trace. -/
theorem documentedLine_append_eol (l : List Char) {ends : List Char}
    (hends : ∀ c ∈ ends, isEol c = true) : documentedLine (l ++ ends) = documentedLine l := by
  have hwhite : ∀ c ∈ ends, isWhite c = true := fun c hc => isWhite_of_isEol (hends c hc)
  by_cases hblank : l.dropWhile isWhite = []
  · have hall : (l ++ ends).dropWhile isWhite = [] := by
      rw [List.dropWhile_append, hblank]
      exact List.dropWhile_eq_nil_iff.mpr hwhite
    rw [documentedLine_of_passedOver (Or.inl hall), documentedLine_of_passedOver (Or.inl hblank)]
  · by_cases hpassed : PassedOver l
    · rw [documentedLine_of_passedOver hpassed,
        documentedLine_of_passedOver ((passedOver_append hblank ends).mpr hpassed)]
    · rw [documentedLine_of_text hpassed,
        documentedLine_of_text (mt (passedOver_append hblank ends).mp hpassed),
        dropWhile_append_of_ne_nil isWhite hblank, documentedTail_append_eol _ hends]

/-! ## A line in two parts -/

theorem openBreak_space (t v : List Char) :
    openBreak (t ++ ' ' :: v) = t ++ ' ' :: openBreak v := by
  induction v using List.reverseRecOn with
  | nil => exact openBreak_of_last rfl
  | append_singleton v c ih =>
      have hparts : t ++ ' ' :: (v ++ [c]) = t ++ ' ' :: v ++ [c] := by simp
      rw [hparts]
      cases hbreak : isBreak c with
      | true =>
          rw [openBreak_concat_break _ hbreak, openBreak_concat_break _ hbreak, ih,
            List.append_assoc, List.cons_append]
      | false => rw [openBreak_of_last hbreak, openBreak_of_last hbreak, ← hparts]

theorem openBreak_ne_nil {t : List Char} (hne : t ≠ []) : openBreak t ≠ [] := by
  intro hnil
  have hlen := length_openBreak t
  rw [hnil] at hlen
  exact hne (List.length_eq_zero_iff.mp hlen.symm)

section Parts

variable {c d : Char} {back : List Char}

/-- A tail that starts with text keeps some. -/
theorem documentedTail_ne_nil (hd : isWhite d = false) : (documentedTail (d :: back)).1 ≠ [] := by
  have heol := isEol_of_not_white hd
  rw [documentedTail]
  split
  · rename_i code hcode
    obtain ⟨rest, rfl⟩ := beforeComment_eq_cons hcode
    exact rdropWhile_cons_ne_nil hd rest
  · split
    · exact openBreak_ne_nil (rdropWhile_cons_ne_nil heol back)
    · exact rdropWhile_cons_ne_nil hd back

/-- The part of a line behind a space ends as it would on its own. -/
theorem documentedTail_space {t : List Char} (hcomment : beforeComment t = none)
    (hd : isWhite d = false) (hhash : d ≠ '#') :
    documentedTail (t ++ ' ' :: d :: back) =
      (t ++ ' ' :: (documentedTail (d :: back)).1, (documentedTail (d :: back)).2) := by
  have heol := isEol_of_not_white hd
  have hparts : ∀ v : List Char, t ++ ' ' :: v = t ++ [' '] ++ v := fun v => by simp
  rw [documentedTail, documentedTail, beforeComment_space hcomment (by simpa using hhash)]
  cases hcode : beforeComment (d :: back) with
  | some code =>
      obtain ⟨rest, rfl⟩ := beforeComment_eq_cons hcode
      simp only [Option.map_some]
      rw [hparts, rdropWhile_append_of_ne_nil isWhite _ (rdropWhile_cons_ne_nil hd rest),
        ← hparts]
  | none =>
      have hends := rdropWhile_cons_ne_nil heol back
      have hlast : ((t ++ ' ' :: d :: back).rdropWhile isEol).getLast? =
          ((d :: back).rdropWhile isEol).getLast? := by
        rw [hparts, rdropWhile_append_of_ne_nil isEol _ hends, List.getLast?_append]
        obtain ⟨a, v, hv⟩ := List.exists_cons_of_ne_nil hends
        rw [hv, List.getLast?_cons, Option.some_or]
      simp only [Option.map_none, hlast]
      split
      · rw [hparts, rdropWhile_append_of_ne_nil isEol _ hends, ← hparts, openBreak_space]
      · rw [hparts, rdropWhile_append_of_ne_nil isWhite _ (rdropWhile_cons_ne_nil hd back),
          ← hparts]

/-- A word with a backslash directly after it ends a piece that goes on. -/
theorem documentedTail_backslash {t : List Char} (hcomment : beforeComment (t ++ [c]) = none)
    (hc : isBreak c = false) :
    documentedTail (t ++ [c] ++ ['\\']) = (t ++ [c] ++ [' '], true) := by
  have hends : (t ++ [c] ++ ['\\']).rdropWhile isEol = t ++ [c] ++ ['\\'] :=
    List.rdropWhile_concat_neg _ _ _ (by decide)
  rw [documentedTail, beforeComment_concat_of_ne _ (by decide), hcomment, hends]
  simp only [List.getLast?_append, List.getLast?_singleton, Option.some_or, if_true]
  rw [openBreak_concat_break _ (by decide), openBreak_of_last hc]
  rfl

end Parts

/-! ## Plain text -/

section Plain

variable {before text after : List Char} {c : Char}

/-- White characters at the end are cut up to the text. -/
theorem rdropWhile_white (hc : isWhite c = false) (hafter : ∀ a ∈ after, isWhite a = true) :
    (text ++ [c] ++ after).rdropWhile isWhite = text ++ [c] := by
  have hall : ∀ a ∈ after.reverse, isWhite a = true :=
    fun a hmem => hafter a (List.mem_reverse.mp hmem)
  rw [List.rdropWhile, List.reverse_append, List.dropWhile_append_of_pos hall,
    ← List.rdropWhile, List.rdropWhile_concat_neg _ _ _ (Bool.eq_false_iff.mp hc)]

/-- They bring no backslash to the end of the line. -/
theorem getLast?_rdropWhile_eol (hc : isWhite c = false) (hbackslash : c ≠ '\\')
    (hafter : ∀ a ∈ after, isWhite a = true) :
    ((text ++ [c] ++ after).rdropWhile isEol).getLast? ≠ some '\\' := by
  induction after using List.reverseRecOn with
  | nil =>
      have heol : ¬ isEol c = true := Bool.eq_false_iff.mp (isEol_of_not_white hc)
      rw [List.append_nil, List.rdropWhile_concat_neg _ _ _ heol, List.getLast?_concat]
      exact fun hlast => hbackslash (Option.some.inj hlast)
  | append_singleton after a ih =>
      have ha : a ≠ '\\' := by
        rintro rfl
        exact absurd (hafter '\\' (by simp)) (by decide)
      rw [← List.append_assoc]
      by_cases heol : isEol a = true
      · rw [List.rdropWhile_concat_pos _ _ _ heol]
        exact ih fun a hmem => hafter a (List.mem_append_left _ hmem)
      · rw [List.rdropWhile_concat_neg _ _ _ heol, List.getLast?_concat]
        exact fun hlast => ha (Option.some.inj hlast)

/-- Plain text, with white characters around it. -/
theorem documentedLine_plain (hbefore : ∀ a ∈ before, isWhite a = true)
    (hafter : ∀ a ∈ after, isWhite a = true) (hne : text ≠ []) (hhash : ∀ a ∈ text, a ≠ '#')
    (hfirst : ∀ a ∈ text.head?, isWhite a = false)
    (hlast : ∀ a ∈ text.getLast?, isWhite a = false ∧ a ≠ '\\') :
    documentedLine (before ++ (text ++ after)) = (text, false) := by
  have hwhole : (before ++ (text ++ after)).dropWhile isWhite = text ++ after := by
    rw [List.dropWhile_append_of_pos hbefore]
    cases text with
    | nil => exact absurd rfl hne
    | cons d text => exact List.dropWhile_cons_of_neg (Bool.eq_false_iff.mp (hfirst d rfl))
  have hcomment : beforeComment (text ++ after) = none := by
    have hnone : ∀ a ∈ text ++ after, a ≠ '#' := by
      intro a hmem
      rcases List.mem_append.mp hmem with hmem | hmem
      · exact hhash a hmem
      · rintro rfl
        exact absurd (hafter _ hmem) (by decide)
    exact (beforeComment_append_of_ne [] hnone).trans rfl
  have hpassed : ¬ PassedOver (before ++ (text ++ after)) := by
    rw [PassedOver, hwhole]
    cases text with
    | nil => exact absurd rfl hne
    | cons d text =>
        rintro (hnil | hhead)
        · cases hnil
        · exact hhash d List.mem_cons_self (Option.some.inj hhead)
  obtain ⟨init, c, rfl⟩ : ∃ init c, text = init ++ [c] :=
    ⟨_, _, (List.dropLast_append_getLast hne).symm⟩
  obtain ⟨hc, hbackslash⟩ := hlast c (by simp)
  rw [documentedLine_of_text hpassed, hwhole, documentedTail, hcomment]
  simp only [if_neg (getLast?_rdropWhile_eol hc hbackslash hafter)]
  rw [rdropWhile_white hc hafter]

end Plain

end IrBridge.Config
