/-
  Config/SplitKey.lean --- `splitKey`, the first word of a line and the rest.

  One pass over the line with three flags that latch in order: a regular
  character was met, then a blank, then a regular character again.  The first
  blank is overwritten with a NUL, so that the key is a string of its own inside
  the line.

  A line is blanks, a key, blanks and arguments; the flags change exactly at
  these borders, and each part is passed over by a lemma of its own
  (`scan_blanks`, `scan_key`, `scan_gap`, `scan_args`).

  The loop counts in an `int`, so what it scans is a prefix of the line.  The parts
  of a prefix are prefixes of the parts (`LineParts.take`), and the line is split
  when the prefix reaches into each of them.
-/
import IrBridge.Config.Trim

set_option autoImplicit false

namespace IrBridge.Config

open IrBridge.Platform

/-! ## The loop -/

/-- `b1`, `b2`, `b3`, the offsets stored in `*pkey` and `*pargs`, and the
characters passed so far as they are now. -/
structure KeyScan where
  b1 : Bool
  b2 : Bool
  b3 : Bool
  pkey : Option Nat
  pargs : Option Nat
  cells : List Char
  deriving DecidableEq

/-- One turn of the loop, at the character `c`. -/
def keyStep (f : KeyScan) (c : Char) : KeyScan :=
  let i := f.cells.length
  -- 1- search for the first non white char
  let b1 := f.b1 || (c != '\t' && c != ' ')
  let pkey := if !f.b1 && b1 then some i else f.pkey
  -- 2- search for the first white char
  let b2 := f.b2 || (b1 && (c == '\t' || c == ' '))
  let kept := if b1 && !f.b2 && b2 then '\x00' else c
  -- 3- then search for a non white char
  let b3 := f.b3 || (b1 && b2 && c != '\t' && c != ' ')
  let pargs := if !f.b3 && b3 then some i else f.pargs
  ⟨b1, b2, b3, pkey, pargs, f.cells ++ [kept]⟩

/-- The line after `splitKey`, and the offsets of the two pointers where they were
set. -/
structure Split where
  cells : List Char
  pkey : Option Nat
  pargs : Option Nat
  deriving DecidableEq

/-- `splitKey(s, &key, &args)`, with both pointers null before the call. -/
def splitKey (s : CString) : Split :=
  let len := (toInt s.strlen).toNat
  let f := (s.chars.take len).foldl keyStep ⟨false, false, false, none, none, []⟩
  ⟨f.cells ++ s.chars.drop len, f.pkey, f.pargs⟩

/-- The string a pointer into the line denotes. -/
def Split.at (r : Split) (offset : Nat) : CString := CString.ofBuffer (r.cells.drop offset)

/-- `key`. -/
def Split.key (r : Split) : Option CString := r.pkey.map r.at

/-- `args`. -/
def Split.args (r : Split) : Option CString := r.pargs.map r.at

/-! ## The parts of a line -/

/-- The first word. -/
def keyOf (s : List Char) : List Char :=
  (s.dropWhile isBlank).takeWhile fun c => !isBlank c

/-- What follows the first word and the blanks after it. -/
def argsOf (s : List Char) : List Char :=
  ((s.dropWhile isBlank).dropWhile fun c => !isBlank c).dropWhile isBlank

/-- A line, cut at the borders of its first word. -/
structure LineParts where
  lead : List Char
  key : List Char
  gap : List Char
  args : List Char
  lead_blank : ∀ c ∈ lead, isBlank c = true
  key_word : ∀ c ∈ key, isBlank c = false
  gap_blank : ∀ c ∈ gap, isBlank c = true
  args_word : ∀ c ∈ args.head?, isBlank c = false
  gap_of_args : args ≠ [] → gap ≠ []
  key_of_gap : gap ≠ [] → key ≠ []

/-- The line. -/
def LineParts.line (p : LineParts) : List Char := p.lead ++ (p.key ++ (p.gap ++ p.args))

theorem LineParts.gap_of_key (p : LineParts) (hkey : p.key = []) : p.gap = [] := by
  by_contra hne
  exact p.key_of_gap hne hkey

theorem LineParts.args_of_gap (p : LineParts) (hgap : p.gap = []) : p.args = [] := by
  by_contra hne
  exact p.gap_of_args hne hgap

theorem head?_dropWhile_not (p : Char → Bool) (s : List Char) :
    ∀ c ∈ (s.dropWhile p).head?, p c = false := by
  induction s with
  | nil => exact fun c hc => absurd hc (by simp)
  | cons a s ih =>
      cases ha : p a with
      | true =>
          rw [List.dropWhile_cons_of_pos ha]
          exact ih
      | false =>
          rw [List.dropWhile_cons_of_neg (by rw [ha]; exact Bool.false_ne_true)]
          intro c hc
          rw [List.head?_cons, Option.mem_some_iff] at hc
          rw [← hc]
          exact ha

theorem head?_takeWhile_of_head? (p : Char → Bool) {s : List Char} {c : Char}
    (hhead : s.head? = some c) (hc : p c = true) : (s.takeWhile p) ≠ [] := by
  cases s with
  | nil => cases hhead
  | cons a s =>
      obtain rfl := Option.some.inj hhead
      rw [List.takeWhile_cons_of_pos hc]
      exact List.cons_ne_nil _ _

/-- Every line has its parts. -/
theorem exists_parts (s : List Char) :
    ∃ p : LineParts, p.line = s ∧ p.key = keyOf s ∧ p.args = argsOf s := by
  have hlead : ∀ c ∈ s.takeWhile isBlank, isBlank c = true :=
    fun c hc => List.mem_takeWhile_imp hc
  have hkey : ∀ c ∈ keyOf s, isBlank c = false := by
    intro c hc
    have := List.mem_takeWhile_imp hc
    simpa using this
  -- What follows the key starts with a blank, and what follows the lead does not.
  have hafterKey := head?_dropWhile_not (fun c => !isBlank c) (s.dropWhile isBlank)
  have hafterLead := head?_dropWhile_not isBlank s
  refine ⟨{
    lead := s.takeWhile isBlank
    key := keyOf s
    gap := ((s.dropWhile isBlank).dropWhile fun c => !isBlank c).takeWhile isBlank
    args := argsOf s
    lead_blank := hlead
    key_word := hkey
    gap_blank := fun c hc => List.mem_takeWhile_imp hc
    args_word := head?_dropWhile_not isBlank _
    gap_of_args := ?_
    key_of_gap := ?_ }, ?_, rfl, rfl⟩
  · intro hargs
    cases hrest : (s.dropWhile isBlank).dropWhile fun c => !isBlank c with
    | nil =>
        rw [argsOf, hrest] at hargs
        exact absurd rfl hargs
    | cons c rest =>
        rw [hrest] at hafterKey
        have hblank := hafterKey c rfl
        rw [List.takeWhile_cons_of_pos (by simpa using hblank)]
        exact List.cons_ne_nil _ _
  · intro hgap
    cases hrest : s.dropWhile isBlank with
    | nil =>
        rw [hrest] at hgap
        exact absurd rfl hgap
    | cons c rest =>
        rw [hrest] at hafterLead
        have hword := hafterLead c rfl
        rw [keyOf, hrest]
        exact head?_takeWhile_of_head? _ rfl (by rw [hword]; rfl)
  · show s.takeWhile isBlank ++ ((s.dropWhile isBlank).takeWhile (fun c => !isBlank c) ++
      (((s.dropWhile isBlank).dropWhile fun c => !isBlank c).takeWhile isBlank ++
        ((s.dropWhile isBlank).dropWhile fun c => !isBlank c).dropWhile isBlank)) = s
    rw [List.takeWhile_append_dropWhile, List.takeWhile_append_dropWhile,
      List.takeWhile_append_dropWhile]

/-! ## The scan of each part -/

/-- Characters at which no flag changes are passed over. -/
theorem scan_still (f : KeyScan) {part : List Char}
    (hstill : ∀ c ∈ part, ∀ cells,
      keyStep { f with cells := cells } c = { f with cells := cells ++ [c] }) :
    part.foldl keyStep f = { f with cells := f.cells ++ part } := by
  induction part generalizing f with
  | nil => rw [List.foldl_nil, List.append_nil]
  | cons c part ih =>
      have hrest : ∀ d ∈ part, ∀ cells,
          keyStep { f with cells := cells } d = { f with cells := cells ++ [d] } :=
        fun d hd => hstill d (List.mem_cons_of_mem c hd)
      rw [List.foldl_cons, hstill c List.mem_cons_self f.cells,
        ih { f with cells := f.cells ++ [c] } hrest]
      simp only [List.append_assoc, List.singleton_append]

theorem scan_blanks {lead : List Char} (hlead : ∀ c ∈ lead, isBlank c = true)
    (pargs : Option Nat) (cells : List Char) :
    lead.foldl keyStep ⟨false, false, false, none, pargs, cells⟩ =
      ⟨false, false, false, none, pargs, cells ++ lead⟩ := by
  apply scan_still ⟨false, false, false, none, pargs, cells⟩
  intro c hc cells
  rcases isBlank_iff.mp (hlead c hc) with rfl | rfl
  · rfl
  · rfl

theorem scan_key {key : List Char} (hkey : ∀ c ∈ key, isBlank c = false)
    (pkey pargs : Option Nat) (cells : List Char) :
    key.foldl keyStep ⟨true, false, false, pkey, pargs, cells⟩ =
      ⟨true, false, false, pkey, pargs, cells ++ key⟩ := by
  apply scan_still ⟨true, false, false, pkey, pargs, cells⟩
  intro c hc cells
  obtain ⟨hspace, htab⟩ : c ≠ ' ' ∧ c ≠ '\t' := by simpa [isBlank] using hkey c hc
  simp [keyStep, hspace, htab]

theorem scan_gap {gap : List Char} (hgap : ∀ c ∈ gap, isBlank c = true)
    (pkey pargs : Option Nat) (cells : List Char) :
    gap.foldl keyStep ⟨true, true, false, pkey, pargs, cells⟩ =
      ⟨true, true, false, pkey, pargs, cells ++ gap⟩ := by
  apply scan_still ⟨true, true, false, pkey, pargs, cells⟩
  intro c hc cells
  rcases isBlank_iff.mp (hgap c hc) with rfl | rfl
  · rfl
  · rfl

theorem scan_args (args : List Char) (pkey pargs : Option Nat) (cells : List Char) :
    args.foldl keyStep ⟨true, true, true, pkey, pargs, cells⟩ =
      ⟨true, true, true, pkey, pargs, cells ++ args⟩ := by
  apply scan_still ⟨true, true, true, pkey, pargs, cells⟩
  intro c _ cells
  simp [keyStep]

/-- The first flag latches at the first character of the key. -/
theorem keyStep_key {k : Char} (hk : isBlank k = false) (cells : List Char) :
    keyStep ⟨false, false, false, none, none, cells⟩ k =
      ⟨true, false, false, some cells.length, none, cells ++ [k]⟩ := by
  obtain ⟨hspace, htab⟩ : k ≠ ' ' ∧ k ≠ '\t' := by simpa [isBlank] using hk
  simp [keyStep, hspace, htab]

/-- The second one at the first blank after it, which becomes a NUL. -/
theorem keyStep_gap {g : Char} (hg : isBlank g = true) (pkey : Option Nat) (cells : List Char) :
    keyStep ⟨true, false, false, pkey, none, cells⟩ g =
      ⟨true, true, false, pkey, none, cells ++ ['\x00']⟩ := by
  rcases isBlank_iff.mp hg with rfl | rfl
  · rfl
  · rfl

/-- The third one at the first character of the arguments. -/
theorem keyStep_args {a : Char} (ha : isBlank a = false) (pkey : Option Nat)
    (cells : List Char) :
    keyStep ⟨true, true, false, pkey, none, cells⟩ a =
      ⟨true, true, true, pkey, some cells.length, cells ++ [a]⟩ := by
  obtain ⟨hspace, htab⟩ : a ≠ ' ' ∧ a ≠ '\t' := by simpa [isBlank] using ha
  simp [keyStep, hspace, htab]

/-- The line after the scan: the first blank after the key is a NUL. -/
def LineParts.cut (p : LineParts) : List Char :=
  p.lead ++ (p.key ++ ((p.gap.set 0 '\x00') ++ p.args))

/-- The whole scan: what it leaves of the line, and where the pointers stand. -/
theorem scan_line (p : LineParts) :
    p.line.foldl keyStep ⟨false, false, false, none, none, []⟩ =
      ⟨p.key ≠ [], p.gap ≠ [], p.args ≠ [],
        if p.key = [] then none else some p.lead.length,
        if p.args = [] then none
          else some (p.lead.length + (p.key.length + p.gap.length)), p.cut⟩ := by
  obtain ⟨lead, key, gap, args, hlead, hkey, hgap, hargs, hargsGap, hgapKey⟩ := p
  simp only [LineParts.line, LineParts.cut]
  rw [List.foldl_append, scan_blanks hlead, List.nil_append]
  cases key with
  | nil =>
      obtain rfl : gap = [] := by
        by_contra hne
        exact hgapKey hne rfl
      obtain rfl : args = [] := by
        by_contra hne
        exact hargsGap hne rfl
      simp
  | cons k key =>
      have hrest : ∀ c ∈ key, isBlank c = false := fun c hc => hkey c (List.mem_cons_of_mem _ hc)
      rw [List.cons_append, List.foldl_cons, keyStep_key (hkey k List.mem_cons_self),
        List.foldl_append, scan_key hrest]
      cases gap with
      | nil =>
          obtain rfl : args = [] := by
            by_contra hne
            exact hargsGap hne rfl
          simp
      | cons g gap =>
          have hblanks : ∀ c ∈ gap, isBlank c = true :=
            fun c hc => hgap c (List.mem_cons_of_mem _ hc)
          rw [List.cons_append, List.foldl_cons, keyStep_gap (hgap g List.mem_cons_self),
            List.foldl_append, scan_gap hblanks]
          cases args with
          | nil => simp
          | cons a args =>
              have hoffset : (lead ++ [k] ++ key ++ ['\x00'] ++ gap).length =
                  lead.length + ((k :: key).length + (g :: gap).length) := by
                simp only [List.length_append, List.length_cons, List.length_nil]
                omega
              rw [List.foldl_cons, keyStep_args (hargs a rfl), scan_args, hoffset]
              simp

/-- Only the first blank after the key differs from the line. -/
theorem LineParts.cut_eq_set (p : LineParts) :
    p.cut = p.line.set (p.lead.length + p.key.length) '\x00' := by
  have hinner : (p.gap ++ p.args).set 0 '\x00' = p.gap.set 0 '\x00' ++ p.args := by
    cases hgap : p.gap with
    | nil =>
        rw [p.args_of_gap hgap]
        rfl
    | cons g gap => rfl
  have hkey : (p.key ++ (p.gap ++ p.args)).set p.key.length '\x00' =
      p.key ++ (p.gap ++ p.args).set 0 '\x00' := by
    rw [List.set_append_right _ _ (Nat.le_refl _), Nat.sub_self]
  rw [LineParts.cut, LineParts.line, List.set_append_right _ _ (Nat.le_add_right _ _),
    Nat.add_sub_cancel_left, hkey, hinner]

/-- No part of a string contains a NUL. -/
theorem LineParts.noNul {p : LineParts} {s : CString} (hp : p.line = s.chars)
    (part : List Char) (hpart : ∀ c ∈ part, c ∈ p.line) :
    ∀ c ∈ part, decide (c ≠ '\x00') = true := by
  intro c hc
  apply decide_eq_true
  apply s.noNul c
  rw [← hp]
  exact hpart c hc

/-- In the cut line the key is a string of its own. -/
theorem LineParts.cut_key {p : LineParts} {s : CString} (hp : p.line = s.chars) :
    (p.cut.drop p.lead.length).takeWhile (· ≠ '\x00') = p.key := by
  have hnul := p.noNul hp p.key fun c hc =>
    List.mem_append_right _ (List.mem_append_left _ hc)
  rw [LineParts.cut, List.drop_left, List.takeWhile_append_of_pos hnul]
  cases hgap : p.gap with
  | nil =>
      rw [p.args_of_gap hgap]
      exact List.append_nil _
  | cons g gap => exact List.append_nil _

/-- The arguments are the end of it. -/
theorem LineParts.cut_args {p : LineParts} {s : CString} (hp : p.line = s.chars) :
    (p.cut.drop (p.lead.length + (p.key.length + p.gap.length))).takeWhile (· ≠ '\x00') =
      p.args := by
  have hnul := p.noNul hp p.args fun c hc =>
    List.mem_append_right _ (List.mem_append_right _ (List.mem_append_right _ hc))
  have hfront : p.cut = (p.lead ++ (p.key ++ p.gap.set 0 '\x00')) ++ p.args := by
    rw [LineParts.cut, List.append_assoc, List.append_assoc]
  have hlen : (p.lead ++ (p.key ++ p.gap.set 0 '\x00')).length =
      p.lead.length + (p.key.length + p.gap.length) := by
    rw [List.length_append, List.length_append, List.length_set]
  rw [hfront, ← hlen, List.drop_left, List.takeWhile_eq_self_iff]
  exact hnul

/-! ## The two strings -/

/-- `splitKey` on a line of which an `int` counts the part `q`. -/
theorem splitKey_counted {s : CString} (q : LineParts)
    (hq : q.line = s.chars.take (toInt s.strlen).toNat) :
    splitKey s = ⟨q.cut ++ s.chars.drop (toInt s.strlen).toNat,
      if q.key = [] then none else some q.lead.length,
      if q.args = [] then none else some (q.lead.length + (q.key.length + q.gap.length))⟩ := by
  have hscan := scan_line q
  rw [hq] at hscan
  rw [splitKey]
  simp only [hscan]

/-- `splitKey` on a line whose length an `int` holds. -/
theorem splitKey_eq {s : CString} (hint : (s.strlen : Int) ≤ intMax) (p : LineParts)
    (hp : p.line = s.chars) :
    splitKey s = ⟨p.cut, if p.key = [] then none else some p.lead.length,
      if p.args = [] then none else some (p.lead.length + (p.key.length + p.gap.length))⟩ := by
  have hlen : (toInt s.strlen).toNat = s.chars.length := by
    rw [toInt_of_range (by omega) hint]
    rfl
  have hcounted := splitKey_counted (s := s) p (by rw [hlen, List.take_length, hp])
  rwa [hlen, List.drop_length, List.append_nil] at hcounted

/-- The key is the first word, if there is one. -/
theorem splitKey_key {s : CString} (hint : (s.strlen : Int) ≤ intMax) :
    (splitKey s).key.map CString.chars =
      if keyOf s.chars = [] then none else some (keyOf s.chars) := by
  obtain ⟨p, hline, hkey, hargs⟩ := exists_parts s.chars
  rw [splitKey_eq hint p hline, ← hkey, Split.key]
  by_cases hempty : p.key = []
  · simp only [if_pos hempty]
    rfl
  · simp only [if_neg hempty, Option.map_some, Option.some.injEq]
    exact p.cut_key hline

/-- The arguments are what follows the blanks after it, if anything does. -/
theorem splitKey_args {s : CString} (hint : (s.strlen : Int) ≤ intMax) :
    (splitKey s).args.map CString.chars =
      if argsOf s.chars = [] then none else some (argsOf s.chars) := by
  obtain ⟨p, hline, hkey, hargs⟩ := exists_parts s.chars
  rw [splitKey_eq hint p hline, ← hargs, Split.args]
  by_cases hempty : p.args = []
  · simp only [if_pos hempty]
    rfl
  · simp only [if_neg hempty, Option.map_some, Option.some.injEq]
    exact p.cut_args hline

/-- The last of the tests listed under the function. -/
example :
    let r := splitKey (CString.ofBuffer "  \thello  \tcou dfsdf \t ".toList)
    r.key.map CString.chars = some "hello".toList ∧
      r.args.map CString.chars = some "cou dfsdf \t ".toList := by
  decide +kernel

/-! ## Lines of any length -/

/-- The parts of the first `n` characters. -/
def LineParts.take (p : LineParts) (n : Nat) : LineParts where
  lead := p.lead.take n
  key := p.key.take (n - p.lead.length)
  gap := p.gap.take (n - p.lead.length - p.key.length)
  args := p.args.take (n - p.lead.length - p.key.length - p.gap.length)
  lead_blank := fun c hc => p.lead_blank c (List.mem_of_mem_take hc)
  key_word := fun c hc => p.key_word c (List.mem_of_mem_take hc)
  gap_blank := fun c hc => p.gap_blank c (List.mem_of_mem_take hc)
  args_word := by
    intro c hc
    rw [List.head?_take] at hc
    split at hc
    · cases hc
    · exact p.args_word c hc
  gap_of_args := by
    intro hargs
    rw [ne_eq, List.take_eq_nil_iff, not_or] at hargs ⊢
    exact ⟨by omega, p.gap_of_args hargs.2⟩
  key_of_gap := by
    intro hgap
    rw [ne_eq, List.take_eq_nil_iff, not_or] at hgap ⊢
    exact ⟨by omega, p.key_of_gap hgap.2⟩

theorem LineParts.take_line (p : LineParts) (n : Nat) : (p.take n).line = p.line.take n := by
  rw [LineParts.line, LineParts.line, List.take_append, List.take_append, List.take_append]
  rfl

/-- A scan of the first `n` characters writes its NUL if it gets past the key. -/
theorem LineParts.take_cut (p : LineParts) (n : Nat) :
    (p.take n).cut ++ p.line.drop n =
      if p.lead.length + p.key.length < n then p.cut else p.line := by
  have hlead : (p.take n).lead.length = min n p.lead.length := List.length_take
  have hkey : (p.take n).key.length = min (n - p.lead.length) p.key.length := List.length_take
  rw [LineParts.cut_eq_set, LineParts.take_line, hlead, hkey]
  by_cases hpast : p.lead.length + p.key.length < n
  · have hborder : min n p.lead.length + min (n - p.lead.length) p.key.length =
        p.lead.length + p.key.length := by
      omega
    have hrest : (p.line.set (p.lead.length + p.key.length) '\x00').drop n = p.line.drop n :=
      List.drop_set_of_lt hpast
    rw [if_pos hpast, hborder, ← List.take_set, ← hrest, List.take_append_drop, p.cut_eq_set]
  · have hborder : n ≤ min n p.lead.length + min (n - p.lead.length) p.key.length := by
      omega
    have hbeyond : (p.line.take n).length ≤
        min n p.lead.length + min (n - p.lead.length) p.key.length :=
      Nat.le_trans (List.length_take_le n p.line) hborder
    rw [if_neg hpast, List.set_eq_of_length_le hbeyond, List.take_append_drop]

/-- `splitKey` on any line: each of its marks is left if the count reaches it. -/
theorem splitKey_parts {s : CString} (p : LineParts) (hp : p.line = s.chars) {n : Nat}
    (hn : (toInt s.strlen).toNat = n) :
    splitKey s = ⟨if p.lead.length + p.key.length < n then p.cut else p.line,
      if p.key ≠ [] ∧ p.lead.length < n then some p.lead.length else none,
      if p.args ≠ [] ∧ p.lead.length + (p.key.length + p.gap.length) < n
        then some (p.lead.length + (p.key.length + p.gap.length)) else none⟩ := by
  have hcounted := splitKey_counted (s := s) (p.take n) (by rw [hn, p.take_line, hp])
  rw [hn, ← hp, p.take_cut] at hcounted
  rw [hcounted]
  have hkey : (p.take n).key = [] ↔ ¬ (p.key ≠ [] ∧ p.lead.length < n) := by
    rw [LineParts.take, List.take_eq_nil_iff, not_and_or, not_not, or_comm]
    exact or_congr Iff.rfl (by omega)
  have hargs : (p.take n).args = [] ↔
      ¬ (p.args ≠ [] ∧ p.lead.length + (p.key.length + p.gap.length) < n) := by
    rw [LineParts.take, List.take_eq_nil_iff, not_and_or, not_not, or_comm]
    exact or_congr Iff.rfl (by omega)
  congr 1
  · by_cases hmark : p.key ≠ [] ∧ p.lead.length < n
    · have hlead : (p.take n).lead = p.lead := List.take_of_length_le (by omega)
      rw [if_neg (fun h => hkey.mp h hmark), if_pos hmark, hlead]
    · rw [if_pos (hkey.mpr hmark), if_neg hmark]
  · by_cases hmark : p.args ≠ [] ∧ p.lead.length + (p.key.length + p.gap.length) < n
    · have hlead : (p.take n).lead = p.lead := List.take_of_length_le (by omega)
      have hword : (p.take n).key = p.key := List.take_of_length_le (by omega)
      have hblanks : (p.take n).gap = p.gap := List.take_of_length_le (by omega)
      rw [if_neg (fun h => hargs.mp h hmark), if_pos hmark, hlead, hword, hblanks]
    · rw [if_pos (hargs.mpr hmark), if_neg hmark]

/-! ## Main result -/

/-- The line from its key on. -/
def fromKey (s : List Char) : List Char := s.dropWhile isBlank

/-- The line from the first blank after its key on. -/
def fromGap (s : List Char) : List Char := (fromKey s).dropWhile fun c => !isBlank c

/-- On a line of blanks the pointers stay null.  Any other line is blanks, its
first word, blanks and the rest, of which the pointers denote the word and the
rest, where there is one; and nothing but the first blank after the word has
changed. -/
def KeySplit (s : CString) : Prop :=
  ((∀ c ∈ s.chars, isBlank c = true) →
    (splitKey s).pkey = none ∧ (splitKey s).pargs = none) ∧
  ((∃ c ∈ s.chars, isBlank c = false) →
    ∃ p : LineParts, p.line = s.chars ∧ p.key ≠ [] ∧
      (splitKey s).key.map CString.chars = some p.key ∧
      (splitKey s).args.map CString.chars = (if p.args = [] then none else some p.args) ∧
      (splitKey s).cells =
        if p.gap = [] then s.chars else s.chars.set (p.lead.length + p.key.length) '\x00')

/-- The key, the blanks after it and the arguments all begin within what an `int`
counts of the line. -/
def StartsCounted (s : CString) : Prop :=
  ∀ part ∈ [fromKey s.chars, fromGap s.chars, argsOf s.chars],
    part ≠ [] → s.strlen - part.length < (toInt s.strlen).toNat

/-- `dropWhile` stops at the border of two parts. -/
theorem dropWhile_border (q : Char → Bool) {front rest : List Char}
    (hfront : ∀ c ∈ front, q c = true) (hrest : ∀ c ∈ rest.head?, q c = false) :
    (front ++ rest).dropWhile q = rest := by
  rw [List.dropWhile_append_of_pos hfront]
  cases rest with
  | nil => rfl
  | cons c rest =>
      rw [List.dropWhile_cons_of_neg]
      rw [hrest c rfl]
      exact Bool.false_ne_true

/-- Blanks and arguments, unless there are none, begin with a blank. -/
theorem LineParts.gap_head (p : LineParts) : ∀ c ∈ (p.gap ++ p.args).head?, isBlank c = true := by
  intro c hc
  cases hgap : p.gap with
  | nil =>
      rw [p.args_of_gap hgap, hgap] at hc
      cases hc
  | cons g gap =>
      rw [hgap, List.cons_append, List.head?_cons, Option.mem_some_iff] at hc
      apply p.gap_blank c
      rw [hgap, hc]
      exact List.mem_cons_self

/-- What follows the lead begins with the key. -/
theorem LineParts.key_head (p : LineParts) :
    ∀ c ∈ (p.key ++ (p.gap ++ p.args)).head?, isBlank c = false := by
  intro c hc
  cases hkey : p.key with
  | nil =>
      rw [p.gap_of_key hkey, p.args_of_gap (p.gap_of_key hkey), hkey] at hc
      cases hc
  | cons k key =>
      rw [hkey, List.cons_append, List.head?_cons, Option.mem_some_iff] at hc
      apply p.key_word c
      rw [hkey, hc]
      exact List.mem_cons_self

theorem LineParts.fromKey_eq (p : LineParts) : fromKey p.line = p.key ++ (p.gap ++ p.args) :=
  dropWhile_border isBlank p.lead_blank p.key_head

theorem LineParts.fromGap_eq (p : LineParts) : fromGap p.line = p.gap ++ p.args := by
  rw [fromGap, p.fromKey_eq]
  apply dropWhile_border
  · intro c hc
    rw [p.key_word c hc]
    rfl
  · intro c hc
    rw [p.gap_head c hc]
    rfl

theorem LineParts.argsOf_eq (p : LineParts) : argsOf p.line = p.args := by
  show (fromGap p.line).dropWhile isBlank = p.args
  rw [p.fromGap_eq]
  exact dropWhile_border isBlank p.gap_blank p.args_word

theorem LineParts.strlen_eq {p : LineParts} {s : CString} (hp : p.line = s.chars) :
    s.strlen = p.lead.length + (p.key.length + (p.gap.length + p.args.length)) := by
  rw [CString.strlen, ← hp, LineParts.line]
  simp only [List.length_append]

/-- The parts begin where the parts before them end. -/
theorem startsCounted_iff {s : CString} {p : LineParts} (hp : p.line = s.chars) {n : Nat}
    (hn : (toInt s.strlen).toNat = n) :
    StartsCounted s ↔
      (p.key ≠ [] → p.lead.length < n) ∧
      (p.gap ≠ [] → p.lead.length + p.key.length < n) ∧
      (p.args ≠ [] → p.lead.length + (p.key.length + p.gap.length) < n) := by
  have hword : p.key ++ (p.gap ++ p.args) ≠ [] ↔ p.key ≠ [] := by
    refine ⟨fun h hkey => h ?_, fun h => List.append_ne_nil_of_left_ne_nil h _⟩
    rw [hkey, p.gap_of_key hkey, p.args_of_gap (p.gap_of_key hkey)]
    rfl
  have hblanks : p.gap ++ p.args ≠ [] ↔ p.gap ≠ [] := by
    refine ⟨fun h hgap => h ?_, fun h => List.append_ne_nil_of_left_ne_nil h _⟩
    rw [hgap, p.args_of_gap hgap]
    rfl
  have hkey : s.strlen - (p.key ++ (p.gap ++ p.args)).length = p.lead.length := by
    rw [LineParts.strlen_eq hp, List.length_append, List.length_append]
    omega
  have hgap : s.strlen - (p.gap ++ p.args).length = p.lead.length + p.key.length := by
    rw [LineParts.strlen_eq hp, List.length_append]
    omega
  have hargs : s.strlen - p.args.length = p.lead.length + (p.key.length + p.gap.length) := by
    rw [LineParts.strlen_eq hp]
    omega
  rw [StartsCounted, hn, ← hp, p.fromKey_eq, p.fromGap_eq, p.argsOf_eq, List.forall_mem_cons,
    List.forall_mem_cons, List.forall_mem_singleton, hword, hblanks, hkey, hgap, hargs]

theorem LineParts.cut_of_gap {p : LineParts} (hgap : p.gap = []) : p.cut = p.line := by
  rw [LineParts.cut, LineParts.line, hgap]
  rfl

/-- With a blank behind its key the line does change. -/
theorem LineParts.cut_ne {p : LineParts} {s : CString} (hp : p.line = s.chars)
    (hgap : p.gap ≠ []) : p.cut ≠ p.line := by
  intro hsame
  have hmem : '\x00' ∈ p.cut := by
    obtain ⟨g, gap, hcons⟩ := List.exists_cons_of_ne_nil hgap
    rw [LineParts.cut, hcons]
    exact List.mem_append_right _ (List.mem_append_right _ List.mem_cons_self)
  rw [hsame, hp] at hmem
  exact s.noNul _ hmem rfl

/-- A line with a key, split by `splitKey`. -/
theorem splitKey_marks {s : CString} {p : LineParts} (hp : p.line = s.chars)
    (hkey : p.key ≠ []) :
    ((splitKey s).key.map CString.chars = some p.key ∧
      (splitKey s).args.map CString.chars = (if p.args = [] then none else some p.args) ∧
      (splitKey s).cells =
        if p.gap = [] then s.chars else s.chars.set (p.lead.length + p.key.length) '\x00') ↔
      StartsCounted s := by
  have hparts := splitKey_parts p hp rfl
  have hpkey := congrArg Split.pkey hparts
  have hpargs := congrArg Split.pargs hparts
  have hcells := congrArg Split.cells hparts
  simp only at hpkey hpargs hcells
  rw [startsCounted_iff hp rfl, Split.key, Split.args, hpkey, hpargs, ← hp, ← p.cut_eq_set]
  constructor
  · rintro ⟨hfound, hrest, hline⟩
    refine ⟨fun _ => ?_, fun hgap => ?_, fun hargs => ?_⟩
    · by_contra hnot
      rw [if_neg fun h => hnot h.2] at hfound
      cases hfound
    · by_contra hnot
      rw [hcells, if_neg hnot, if_neg hgap] at hline
      exact LineParts.cut_ne hp hgap hline.symm
    · by_contra hnot
      rw [if_neg fun h => hnot h.2, if_neg hargs] at hrest
      cases hrest
  · rintro ⟨hstart, hgap, hargs⟩
    have hcut : (splitKey s).cells = p.cut := by
      rw [hcells]
      by_cases hnone : p.gap = []
      · rw [LineParts.cut_of_gap hnone, ite_self]
      · rw [if_pos (hgap hnone)]
    rw [if_pos ⟨hkey, hstart hkey⟩, Option.map_some, Option.map_some, Split.at, hcut]
    refine ⟨congrArg some (LineParts.cut_key hp), ?_, ?_⟩
    · by_cases hnone : p.args = []
      · rw [if_neg fun h => h.1 hnone, if_pos hnone]
        rfl
      · rw [if_pos ⟨hnone, hargs hnone⟩, if_neg hnone, Option.map_some, Option.map_some, Split.at,
          hcut]
        exact congrArg some (LineParts.cut_args hp)
    · by_cases hnone : p.gap = []
      · rw [if_pos hnone, LineParts.cut_of_gap hnone]
      · rw [if_neg hnone]

/-- A line without a key is blank. -/
theorem LineParts.key_eq_nil_iff {p : LineParts} {s : CString} (hp : p.line = s.chars) :
    p.key = [] ↔ ∀ c ∈ s.chars, isBlank c = true := by
  rw [← hp]
  constructor
  · intro hkey c hc
    rw [LineParts.line, hkey, p.gap_of_key hkey, p.args_of_gap (p.gap_of_key hkey)] at hc
    exact p.lead_blank c (by simpa using hc)
  · intro hblank
    by_contra hne
    obtain ⟨k, key, hcons⟩ := List.exists_cons_of_ne_nil hne
    have hmem : k ∈ p.key := by
      rw [hcons]
      exact List.mem_cons_self
    have hword := p.key_word k hmem
    rw [hblank k (List.mem_append_right _ (List.mem_append_left _ hmem))] at hword
    cases hword

/-- The lines that `splitKey` splits: an `int` counts of each part at least the
first character. -/
theorem splitKey_splits_iff (s : CString) : KeySplit s ↔ StartsCounted s := by
  obtain ⟨p, hp, -, -⟩ := exists_parts s.chars
  have hblank := LineParts.key_eq_nil_iff hp
  by_cases hkey : p.key = []
  · have hgap := p.gap_of_key hkey
    have hargs := p.args_of_gap hgap
    have hcounted : StartsCounted s := (startsCounted_iff hp rfl).mpr
      ⟨fun h => absurd hkey h, fun h => absurd hgap h, fun h => absurd hargs h⟩
    refine ⟨fun _ => hcounted, fun _ => ⟨fun _ => ?_, fun ⟨c, hc, hword⟩ => ?_⟩⟩
    · rw [splitKey_parts p hp rfl]
      exact ⟨if_neg fun h => h.1 hkey, if_neg fun h => h.1 hargs⟩
    · rw [hblank.mp hkey c hc] at hword
      cases hword
  · have hword : ∃ c ∈ s.chars, isBlank c = false := by
      by_contra hnone
      apply hkey
      apply hblank.mpr
      intro c hc
      by_contra hc'
      exact hnone ⟨c, hc, Bool.eq_false_iff.mpr hc'⟩
    constructor
    · rintro ⟨_, hsplit⟩
      obtain ⟨q, hq, hqkey, hmarks⟩ := hsplit hword
      exact (splitKey_marks hq hqkey).mp hmarks
    · intro hcounted
      exact ⟨fun hall => absurd (hblank.mpr hall) hkey,
        fun _ => ⟨p, hp, hkey, (splitKey_marks hp hkey).mpr hcounted⟩⟩

/-- A word of 2^31 letters has a negative length: the loop makes no turn. -/
theorem splitKey_fails : ¬ KeySplit (lettersA 2147483648) := by
  intro hsplit
  have hlen : (lettersA 2147483648).strlen = 2147483648 := List.length_replicate
  have hcount : (toInt (lettersA 2147483648).strlen).toNat = 0 := by
    rw [hlen]
    unfold toInt
    decide
  have hword : 'a' ∈ (lettersA 2147483648).chars :=
    List.mem_replicate.mpr ⟨by omega, rfl⟩
  obtain ⟨p, hp, hkey, hmarks⟩ := hsplit.2 ⟨'a', hword, rfl⟩
  have hstart := ((startsCounted_iff hp hcount).mp ((splitKey_marks hp hkey).mp hmarks)).1 hkey
  omega

end IrBridge.Config
