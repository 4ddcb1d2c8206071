/-
  Scale/Tokens.lean --- an argument string that is cut and trimmed in place.

  `strtok` writes a NUL over the separator behind a token and remembers where the
  next call goes on; `trim` works on a token within the array it takes.  Both
  write into one array, and pointers into it are kept.

  `Stands` says what a call of `strtok` leaves, as the tokens that are still to
  come.  It holds after the first call (`strtok_stands`), and trimming a token and
  asking for the next one keeps it (`Stands.turn`); what stands in front of the
  token is not touched by either.
-/
import IrBridge.Config.Documented
import Mathlib.Algebra.Order.BigOperators.Group.List
import Mathlib.Algebra.Order.Group.Nat
import Mathlib.Algebra.Ring.Nat

set_option autoImplicit false

namespace IrBridge.Scale

open IrBridge.Config
open IrBridge.Platform

/-! ## The array -/

/-- The string at a position of an array. -/
def readAt (args : List Char) (p : Nat) : CString := CString.ofBuffer (args.drop p)

/-- The array, with other cells from a position on. -/
def writeAt (args : List Char) (p : Nat) (cells : List Char) : List Char :=
  args.take p ++ (cells ++ args.drop (p + cells.length))

/-- What a call of `strtok` leaves: the array, the position at which the next
call goes on, and the token's position, if there is one. -/
structure Scan where
  args : List Char
  save : Nat
  p : Option Nat
  deriving DecidableEq

/-- `strtok(NULL, ";")`, and `strtok(args, ";")` from position 0. -/
def strtok (args : List Char) (save : Nat) : Scan :=
  let text := (readAt args save).chars
  let start := save + (text.takeWhile (· == ';')).length
  let token := (text.dropWhile (· == ';')).takeWhile (· != ';')
  let stop := start + token.length
  if token = [] then ⟨args, start, none⟩
  else if args[stop]? = some ';' then ⟨args.set stop '\x00', stop + 1, some start⟩
  else ⟨args, stop, some start⟩

theorem readAt_chars {front text : List Char} (hnul : ∀ c ∈ text, c ≠ '\x00')
    (behind : List Char) :
    (readAt (front ++ (text ++ '\x00' :: behind)) front.length).chars = text := by
  show (List.drop _ _).takeWhile _ = _
  rw [List.drop_left, List.takeWhile_append_of_pos fun c hc => decide_eq_true (hnul c hc),
    List.takeWhile_cons_of_neg (by decide), List.append_nil]

/-- A string that ends in the front of an array is the same whatever stands
behind. -/
theorem readAt_append {front : List Char} {p : Nat} (hend : '\x00' ∈ front.drop p)
    (behind : List Char) : readAt (front ++ behind) p = readAt front p := by
  have hle : p ≤ front.length := by
    by_contra hout
    rw [List.drop_eq_nil_of_le (by omega)] at hend
    exact List.not_mem_nil hend
  apply CString.ext
  show (List.drop _ _).takeWhile _ = (List.drop _ _).takeWhile _
  rw [List.drop_append_of_le_length hle, List.takeWhile_append, if_neg]
  intro hall
  have hself := List.takeWhile_eq_self_iff.mp ((List.takeWhile_prefix _).eq_of_length hall)
  exact absurd (hself _ hend) (by decide)

theorem writeAt_append {before token cells : List Char} (hlen : cells.length = token.length)
    (behind : List Char) :
    writeAt (before ++ (token ++ behind)) before.length cells =
      before ++ (cells ++ behind) := by
  rw [writeAt, List.take_left, hlen, List.drop_length_add_append, List.drop_left]

/-! ## Tokens -/

/-- The tokens of a text: what stands between its semicolons, where something
does. -/
def tokensOf (text : List Char) : List (List Char) :=
  (text.splitOn ';').filter fun token => token ≠ []

theorem tokensOf_separators {seps : List Char} (hseps : ∀ c ∈ seps, c = ';')
    (rest : List Char) : tokensOf (seps ++ rest) = tokensOf rest := by
  induction seps with
  | nil => rfl
  | cons c seps ih =>
      obtain rfl := hseps c List.mem_cons_self
      rw [List.cons_append, ← ih fun c hc => hseps c (List.mem_cons_of_mem _ hc)]
      have hsplit := List.splitOn_append_cons_self (a := ';') [] (seps ++ rest)
      rw [tokensOf, ← List.nil_append (';' :: _), hsplit, List.filter_append]
      rfl

theorem filter_token {token : List Char} (hne : token ≠ []) :
    [token].filter (fun token => token ≠ []) = [token] :=
  List.filter_cons_of_pos (decide_eq_true hne)

theorem tokensOf_token {token : List Char} (hne : token ≠ []) (hother : ';' ∉ token) :
    tokensOf token = [token] := by
  rw [tokensOf, List.splitOn_eq_singleton hother, filter_token hne]

theorem tokensOf_cons {token : List Char} (hne : token ≠ []) (hother : ';' ∉ token)
    (rest : List Char) : tokensOf (token ++ ';' :: rest) = token :: tokensOf rest := by
  rw [tokensOf, List.splitOn_append_cons_self, List.splitOn_eq_singleton hother,
    List.filter_append, filter_token hne, List.singleton_append, tokensOf]

/-- A token takes its characters and, but for the last, a separator. -/
theorem sum_tokensOf_le (text : List Char) :
    ((tokensOf text).map fun token => token.length + 1).sum ≤ text.length + 1 := by
  have hpieces : ((text.splitOn ';').map fun token => token.length + 1).sum =
      text.length + 1 := by
    induction text with
    | nil => rfl
    | cons c text ih =>
        rw [List.splitOn_cons_eq_if_modifyHead, List.length_cons]
        split
        · rw [List.map_cons, List.sum_cons, ih, List.length_nil]
          omega
        · obtain ⟨piece, pieces, hpieces⟩ :=
            List.exists_cons_of_ne_nil (List.splitOn_ne_nil ';' text)
          rw [hpieces, List.map_cons, List.sum_cons] at ih
          rw [hpieces, List.modifyHead_cons, List.map_cons, List.sum_cons, List.length_cons]
          omega
  rw [← hpieces, tokensOf]
  exact (List.filter_sublist.map _).sum_le_sum fun _ _ => Nat.zero_le _

theorem length_tokensOf_le (text : List Char) : (tokensOf text).length ≤ text.length := by
  have hsum := sum_tokensOf_le text
  have hcost : ∀ n ∈ (tokensOf text).map fun token => token.length + 1, 2 ≤ n := by
    intro n hmem
    obtain ⟨token, htoken, rfl⟩ := List.mem_map.mp hmem
    have hne : token ≠ [] := of_decide_eq_true (List.mem_filter.mp htoken).2
    have hpos : 0 < token.length := List.length_pos_iff.mpr hne
    omega
  have hcount := List.card_nsmul_le_sum _ 2 hcost
  rw [List.length_map, Nat.nsmul_eq_mul] at hcount
  omega

/-! ## The calls of `strtok` -/

/-- `front` of the array is passed, and the tokens are still to come. -/
inductive Stands (front : List Char) : List (List Char) → Scan → Prop where
  /-- no token is left -/
  | done {args : List Char} {save : Nat} (hfront : front <+: args) :
      Stands front [] ⟨args, save, none⟩
  /-- the token ends where the string ends -/
  | last {seps token behind : List Char} (hne : token ≠ [])
      (hnul : ∀ c ∈ token, c ≠ '\x00') :
      Stands front [token]
        ⟨front ++ seps ++ (token ++ '\x00' :: behind), (front ++ seps).length + token.length,
          some (front ++ seps).length⟩
  /-- the token ended with a separator, and there is more text behind it -/
  | more {seps token text behind : List Char} (hne : token ≠ [])
      (hnul : ∀ c ∈ token, c ≠ '\x00') (htext : ∀ c ∈ text, c ≠ '\x00') :
      Stands front (token :: tokensOf text)
        ⟨front ++ seps ++ (token ++ '\x00' :: (text ++ '\x00' :: behind)),
          (front ++ seps).length + token.length + 1, some (front ++ seps).length⟩

/-- A text is a run of separators, a token, and what stands behind it. -/
theorem text_parts (text : List Char) :
    ∃ seps token rest, text.takeWhile (· == ';') = seps ∧
      (text.dropWhile (· == ';')).takeWhile (· != ';') = token ∧
      text = seps ++ (token ++ rest) ∧ (∀ c ∈ seps, c = ';') ∧ ';' ∉ token ∧
      (rest = [] ∨ token ≠ [] ∧ ∃ text', rest = ';' :: text') := by
  refine ⟨_, _, (text.dropWhile (· == ';')).dropWhile (· != ';'), rfl, rfl, ?_, ?_, ?_, ?_⟩
  · rw [List.takeWhile_append_dropWhile, List.takeWhile_append_dropWhile]
  · intro c hc
    simpa using List.mem_takeWhile_imp hc
  · intro hmem
    exact absurd (List.mem_takeWhile_imp hmem) (by decide)
  · have hbody := List.head?_dropWhile_not (· == ';') text
    have hrest := List.head?_dropWhile_not (· != ';') (text.dropWhile (· == ';'))
    generalize text.dropWhile (· == ';') = body at hbody hrest ⊢
    cases hcut : body.dropWhile (· != ';') with
    | nil => exact Or.inl rfl
    | cons c text' =>
        rw [hcut] at hrest
        obtain rfl : c = ';' := by simpa using hrest
        refine Or.inr ⟨?_, text', rfl⟩
        intro hnone
        -- The body would start with a separator.
        have hall := List.takeWhile_append_dropWhile (p := (· != ';')) (l := body)
        rw [hnone, hcut] at hall
        rw [← hall] at hbody
        exact Bool.noConfusion (show true = false from hbody)

/-- A call of `strtok` finds the tokens of the text that is left. -/
theorem strtok_stands (front : List Char) {text : List Char} (hnul : ∀ c ∈ text, c ≠ '\x00')
    (behind : List Char) :
    Stands front (tokensOf text)
      (strtok (front ++ (text ++ '\x00' :: behind)) front.length) := by
  obtain ⟨seps, token, rest, hseps, htoken, htext, hsemicolons, hother, hcases⟩ :=
    text_parts text
  have htokennul : ∀ c ∈ token, c ≠ '\x00' := fun c hc => hnul c (by simp [htext, hc])
  have hrestnul : ∀ c ∈ rest, c ≠ '\x00' := fun c hc => hnul c (by simp [htext, hc])
  have hargs : front ++ (text ++ '\x00' :: behind) =
      front ++ seps ++ (token ++ (rest ++ '\x00' :: behind)) := by
    rw [htext]
    simp only [List.append_assoc]
  have hstart : front.length + seps.length = (front ++ seps).length := List.length_append.symm
  have hstop : (front ++ (text ++ '\x00' :: behind))[(front ++ seps).length + token.length]? =
      (rest ++ '\x00' :: behind).head? := by
    rw [hargs, List.getElem?_append_right (Nat.le_add_right _ _), Nat.add_sub_cancel_left,
      List.getElem?_append_right (Nat.le_refl _), Nat.sub_self, List.head?_eq_getElem?]
  rw [strtok, readAt_chars hnul]
  simp only [hseps, htoken, hstart, hstop]
  rw [hargs, htext, tokensOf_separators hsemicolons]
  rcases hcases with rfl | ⟨hne, text', rfl⟩
  · rw [List.append_nil, List.nil_append]
    by_cases hne : token = []
    · rw [if_pos hne, hne, List.append_assoc]
      exact .done (List.prefix_append _ _)
    · rw [if_neg hne, List.head?_cons, if_neg (by decide), tokensOf_token hne hother]
      exact .last hne htokennul
  · have hset : (front ++ seps ++ (token ++ ';' :: (text' ++ '\x00' :: behind))).set
        ((front ++ seps).length + token.length) '\x00' =
          front ++ seps ++ (token ++ '\x00' :: (text' ++ '\x00' :: behind)) := by
      rw [List.set_append_right _ _ (Nat.le_add_right _ _), Nat.add_sub_cancel_left,
        List.set_append_right _ _ (Nat.le_refl _), Nat.sub_self, List.set_cons_zero]
    rw [if_neg hne, List.cons_append, List.head?_cons, if_pos rfl, tokensOf_cons hne hother, hset]
    exact .more hne htokennul fun c hc => hrestnul c (List.mem_cons_of_mem _ hc)

/-- With no text left there is no token. -/
theorem strtok_end (front behind : List Char) :
    strtok (front ++ '\x00' :: behind) front.length =
      ⟨front ++ '\x00' :: behind, front.length, none⟩ := by
  have hnone : (readAt (front ++ ([] ++ '\x00' :: behind)) front.length).chars = [] :=
    readAt_chars (fun _ hc => absurd hc List.not_mem_nil) behind
  rw [List.nil_append] at hnone
  rw [strtok, hnone]
  rfl

theorem Stands.in_front {front : List Char} {rest : List (List Char)} {scan : Scan}
    (h : Stands front rest scan) : front <+: scan.args := by
  cases h with
  | done hfront => exact hfront
  | last hne hnul => exact (List.prefix_append _ _).trans (List.prefix_append _ _)
  | more hne hnul htext => exact (List.prefix_append _ _).trans (List.prefix_append _ _)

theorem Stands.end_none {front : List Char} {scan : Scan} (h : Stands front [] scan) :
    scan.p = none := by
  cases h with
  | done hfront => rfl

/-- The token stands at `p`.  Whatever is written over it and its NUL, as long as
a NUL stands there again, the tokens behind it are still to come. -/
theorem Stands.turn {front token : List Char} {rest : List (List Char)} {scan : Scan}
    (h : Stands front (token :: rest) scan) :
    ∃ before, front <+: before ∧ scan.p = some before.length ∧ token ≠ [] ∧
      (readAt scan.args before.length).chars = token ∧
      ∀ chars, chars.length = token.length →
        ∃ behind, writeAt scan.args before.length (chars ++ ['\x00']) =
            before ++ (chars ++ ['\x00']) ++ behind ∧
          Stands (before ++ (chars ++ ['\x00'])) rest
            (strtok (before ++ (chars ++ ['\x00']) ++ behind) scan.save) := by
  have hcell : ∀ text behind : List Char,
      text ++ '\x00' :: behind = (text ++ ['\x00']) ++ behind :=
    fun text behind => List.append_cons text '\x00' behind
  cases h with
  | last hne hnul =>
      rename_i seps behind
      refine ⟨front ++ seps, List.prefix_append _ _, rfl, hne, readAt_chars hnul _, ?_⟩
      intro chars hlen
      refine ⟨behind, ?_, ?_⟩
      · rw [hcell, writeAt_append (by simp [hlen]), List.append_assoc (front ++ seps)]
      · have hend := strtok_end (front ++ seps ++ chars) behind
        rw [List.length_append, hlen, hcell, List.append_assoc (front ++ seps) chars] at hend
        rw [hend]
        exact .done (List.prefix_append _ _)
  | more hne hnul htext =>
      rename_i seps text behind
      refine ⟨front ++ seps, List.prefix_append _ _, rfl, hne, readAt_chars hnul _, ?_⟩
      intro chars hlen
      refine ⟨text ++ '\x00' :: behind, ?_, ?_⟩
      · rw [hcell token, writeAt_append (by simp [hlen]), List.append_assoc (front ++ seps)]
      · have hnext := strtok_stands (front ++ seps ++ (chars ++ ['\x00'])) htext behind
        have hsave : (front ++ seps ++ (chars ++ ['\x00'])).length =
            (front ++ seps).length + token.length + 1 := by
          simp only [List.length_append, List.length_singleton, hlen]
          omega
        rwa [hsave] at hnext

end IrBridge.Scale
