/-
  Scale/Targets.lean --- `starfrit_setup`, the table of configured targets.

  The argument string lists a lower bound, an upper bound and a url for each
  target, with semicolons between all of them.  It is cut and trimmed in place,
  and the number of a token modulo 3 says where it is stored; a url is stored as a
  pointer into the string.  Only a url that starts with `http://` moves the
  function on to the next entry of the table, and nothing compares the number of
  entries with the size of the table: a store past its end is a fault here.

  `Progress` is the invariant of the loop: which tokens have been placed, what the
  table holds of them in groups of three, that they all still stand where they
  were found, and which tokens are still to come.  One turn keeps it
  (`Progress.turn`), and the main result counts what the targets cost.
-/
import IrBridge.Foundation.Grouping
import IrBridge.Foundation.Transition
import IrBridge.Scale.Tokens
import Mathlib.Algebra.Ring.Int.Defs

set_option autoImplicit false

namespace IrBridge.Scale

open IrBridge.Config
open IrBridge.Foundation
open IrBridge.Platform

/-! ## The table -/

/-- `MAX_CONF`. -/
def maxConf : Nat := 128

/-- An entry of `starfritconf`, whose url is kept as a `Url`. -/
structure Target (F Url : Type) where
  min : F
  max : F
  url : Option Url
  deriving DecidableEq

/-- `starfritcount`, `starfritconf` and `starfrit_led`.  A url is a position in the
argument string. -/
structure Targets (F : Type) where
  starfritcount : Nat
  starfritconf : List (Target F Nat)
  starfritLed : Int
  size_eq : starfritconf.length = maxConf

/-- The zeroed globals. -/
def Targets.start {F : Type} [Zero F] : Targets F where
  starfritcount := 0
  starfritconf := List.replicate maxConf ⟨0, 0, none⟩
  starfritLed := 0
  size_eq := List.length_replicate

/-- What `starfrit_setup` must not do. -/
inductive SetupFault where
  /-- `trim` does not return -/
  | trim (fault : Fault)
  /-- `starfritconf` is written at an index that is not below `MAX_CONF` -/
  | tableOverflow
  /-- more tokens than the string has characters -/
  | endless
  deriving DecidableEq

/-! ## The function -/

/-- `"http://"` -/
def httpPrefix : List Char := ['h', 't', 't', 'p', ':', '/', '/']

/-- `strncmp(p, "http://", 7) == 0`. -/
def isHttp (p : List Char) : Bool := p.take 7 == httpPrefix

/-- `n`, what `strtok` left, and the table. -/
structure Setup (F : Type) where
  n : Nat
  scan : Scan
  targets : Targets F

section Setup

variable {F : Type}

/-- An assignment to a field of `starfritconf[starfritcount]`. -/
def Targets.write (t : Targets F) (f : Target F Nat → Target F Nat) :
    Except SetupFault (Targets F) :=
  if t.starfritcount < maxConf then
    .ok { t with
      starfritconf := t.starfritconf.modify t.starfritcount f
      size_eq := (List.length_modify f _ _).trans t.size_eq }
  else .error .tableOverflow

/-- Before the loop, after the first call of `strtok`. -/
def Setup.start (t : Targets F) (args : CString) : Setup F := ⟨0, strtok args.cells 0, t⟩

variable [Zero F] [LT F] [DecidableLT F]

/-- A limit that is negative is replaced by 0. -/
def limit (x : F) : F := if x < 0 then 0 else x

/-- `switch(n%3)`, on the trimmed token at `p`. -/
def place (atof : List Char → F) (n : Nat) (t : Targets F) (p : Nat) (text : List Char) :
    Except SetupFault (Targets F) :=
  match n % 3 with
  | 0 => t.write fun e => { e with min := limit (atof text) }
  | 1 => t.write fun e => { e with max := limit (atof text) }
  | _ =>
      if isHttp text then do
        let t ← t.write fun e => { e with url := some p }
        return { t with starfritcount := t.starfritcount + 1 }
      else .ok t

/-- The body of the loop, after `trim` has returned. -/
def placeTrimmed (atof : List Char → F) (s : Setup F) (p : Nat) :
    Except Fault Trimmed → Except SetupFault (Setup F)
  | .error fault => .error (.trim fault)
  | .ok trimmed => do
      let args := writeAt s.scan.args p trimmed.cells
      let t ← place atof s.n s.targets p (readAt args p).chars
      return ⟨s.n + 1, strtok args s.scan.save, t⟩

/-- The body of the loop, at the token `p`. -/
def setupTurn (dm : DataModel) (atof : List Char → F) (s : Setup F) (p : Nat) :
    Except SetupFault (Setup F) :=
  placeTrimmed atof s p (trim dm (readAt s.scan.args p))

/-- `while(p)`. -/
def setupLoop (dm : DataModel) (atof : List Char → F) :
    Nat → Setup F → Except SetupFault (Setup F)
  | 0, _ => .error .endless
  | fuel + 1, s =>
      match s.scan.p with
      | none => .ok s
      | some p => do
          let s ← setupTurn dm atof s p
          setupLoop dm atof fuel s

/-- `starfrit_setup(led, args)`: its variables and the table when it returns. -/
def starfritSetup (dm : DataModel) (atof : List Char → F) (t : Targets F) (led : Int)
    (args : Option CString) : Except SetupFault (Setup F) :=
  let t := { t with starfritLed := led }
  match args with
  | none => .ok ⟨0, ⟨[], 0, none⟩, t⟩
  | some args => setupLoop dm atof (args.strlen + 1) (Setup.start t args)

/-- One turn of the loop. -/
def SetupStep (dm : DataModel) (atof : List Char → F) (s : Setup F) (p : Nat)
    (s' : Setup F) : Prop :=
  s.scan.p = some p ∧ setupTurn dm atof s p = .ok s'

end Setup

/-! ## One entry of the table -/

section Table

variable {F : Type}

/-- The entries that count. -/
def Targets.counted (t : Targets F) : List (Target F Nat) :=
  t.starfritconf.take t.starfritcount

/-- The entry that is being filled. -/
def Targets.filling (t : Targets F) : Option (Target F Nat) := t.starfritconf[t.starfritcount]?

/-- In a table with room, an assignment changes the entry that is being filled. -/
theorem write_of_room {t : Targets F} (hroom : t.starfritcount < maxConf)
    (f : Target F Nat → Target F Nat) :
    ∃ t' e, t.write f = .ok t' ∧ t'.starfritcount = t.starfritcount ∧
      t'.counted = t.counted ∧ t.filling = some e ∧ t'.filling = some (f e) := by
  have hsize := t.size_eq
  refine ⟨_, t.starfritconf[t.starfritcount], if_pos hroom, rfl, ?_,
    List.getElem?_eq_getElem _, ?_⟩
  · show (t.starfritconf.modify t.starfritcount f).take t.starfritcount = _
    rw [List.take_modify, List.modify_eq_self (List.length_take_le _ _), Targets.counted]
  · show (t.starfritconf.modify t.starfritcount f)[t.starfritcount]? = _
    rw [List.getElem?_modify_eq, List.getElem?_eq_getElem (by omega)]
    rfl

/-- A token: where it stands, and its characters before it is trimmed. -/
structure Token where
  pos : Nat
  chars : List Char

/-- What `trim` leaves of a token. -/
def Token.text (x : Token) : List Char := (documentedLine x.chars).1

/-- The url of a group of tokens is a target. -/
def isTarget (group : Token × Token × Token) : Bool := isHttp group.2.2.text

variable [Zero F] [LT F] [DecidableLT F] (atof : List Char → F)

/-- The entry a group of tokens is stored as. -/
def entry (group : Token × Token × Token) : Target F Nat :=
  ⟨limit (atof group.1.text), limit (atof group.2.1.text), some group.2.2.pos⟩

/-- The entry that is being filled holds what has come of a group. -/
def Begun : Grouping.Pending Token → Option (Target F Nat) → Prop
  | .none, _ => True
  | .one min, filling => ∃ e, filling = some e ∧ e.min = limit (atof min.text)
  | .two min max, filling =>
      ∃ e, filling = some e ∧ e.min = limit (atof min.text) ∧ e.max = limit (atof max.text)

/-- The table after groups of tokens, and what has come of another one. -/
structure Filled (pending : Grouping.Pending Token) (groups : List (Token × Token × Token))
    (n : Nat) (t : Targets F) : Prop where
  turn : n % 3 = pending.count
  count_eq : t.starfritcount = (groups.filter isTarget).length
  counted_eq : t.counted = (groups.filter isTarget).map (entry atof)
  begun : Begun atof pending t.filling

section Placed

variable {atof} {groups : List (Token × Token × Token)} {n : Nat} {t : Targets F}

/-- The first token of a group is its lower bound. -/
theorem Filled.place_min (h : Filled atof .none groups n t) (hroom : t.starfritcount < maxConf)
    (x : Token) :
    ∃ t', place atof n t x.pos x.text = .ok t' ∧ Filled atof (.one x) groups (n + 1) t' := by
  have hn : n % 3 = 0 := h.turn
  have hturn : (n + 1) % 3 = 1 := by omega
  obtain ⟨t', e, hwrite, hcount, hcounted, _, hfilled⟩ :=
    write_of_room hroom fun e => { e with min := limit (atof x.text) }
  refine ⟨t', ?_, hturn, hcount.trans h.count_eq, hcounted.trans h.counted_eq, _, hfilled, rfl⟩
  rw [place, hn]
  exact hwrite

/-- The second one is its upper bound. -/
theorem Filled.place_max {min : Token} (h : Filled atof (.one min) groups n t)
    (hroom : t.starfritcount < maxConf) (x : Token) :
    ∃ t', place atof n t x.pos x.text = .ok t' ∧ Filled atof (.two min x) groups (n + 1) t' := by
  have hn : n % 3 = 1 := h.turn
  have hturn : (n + 1) % 3 = 2 := by omega
  obtain ⟨t', e, hwrite, hcount, hcounted, hfilling, hfilled⟩ :=
    write_of_room hroom fun e => { e with max := limit (atof x.text) }
  obtain ⟨_, hsame, hmin⟩ := h.begun
  obtain rfl := Option.some.inj (hfilling.symm.trans hsame)
  refine ⟨t', ?_, hturn, hcount.trans h.count_eq, hcounted.trans h.counted_eq, _, hfilled, hmin,
    rfl⟩
  rw [place, hn]
  exact hwrite

/-- The third one is its url, and completes the group.  The entry counts if it is a
target; otherwise it stays the one that is being filled. -/
theorem Filled.place_url {min max : Token} (h : Filled atof (.two min max) groups n t)
    (hroom : t.starfritcount < maxConf) (x : Token) :
    ∃ t', place atof n t x.pos x.text = .ok t' ∧
      Filled atof .none (groups ++ [(min, max, x)]) (n + 1) t' := by
  have hn : n % 3 = 2 := h.turn
  have hturn : (n + 1) % 3 = 0 := by omega
  obtain ⟨e, hfilling, hmin, hmax⟩ := h.begun
  rw [place, hn]
  by_cases htarget : isTarget (min, max, x) = true
  · have hurl : isHttp x.text = true := htarget
    have htargets : (groups ++ [(min, max, x)]).filter isTarget =
        groups.filter isTarget ++ [(min, max, x)] := by
      rw [List.filter_append, List.filter_cons_of_pos htarget, List.filter_nil]
    obtain ⟨t', _, hwrite, hcount, hcounted, hfilling', hfilled⟩ :=
      write_of_room hroom fun e => { e with url := some x.pos }
    obtain rfl := Option.some.inj (hfilling.symm.trans hfilling')
    rw [if_pos hurl, hwrite]
    refine ⟨_, rfl, hturn, ?_, ?_, trivial⟩
    · rw [htargets, List.length_append, List.length_singleton, ← h.count_eq, ← hcount]
    · show t'.starfritconf.take (t'.starfritcount + 1) = _
      rw [List.take_add_one, ← Targets.counted, ← Targets.filling, hfilled, hcounted,
        h.counted_eq, htargets, List.map_append, List.map_singleton, entry, ← hmin, ← hmax]
      rfl
  · have hurl : ¬ isHttp x.text = true := htarget
    have htargets : (groups ++ [(min, max, x)]).filter isTarget = groups.filter isTarget := by
      rw [List.filter_append, List.filter_cons_of_neg htarget, List.filter_nil, List.append_nil]
    rw [if_neg hurl]
    refine ⟨t, rfl, hturn, ?_, ?_, trivial⟩
    · rw [htargets, h.count_eq]
    · rw [htargets, h.counted_eq]

/-- A token is placed behind those that are. -/
theorem Filled.place {pending : Grouping.Pending Token} (h : Filled atof pending groups n t)
    (hroom : t.starfritcount < maxConf) (x : Token) :
    ∃ t', place atof n t x.pos x.text = .ok t' ∧
      Filled atof (Grouping.machine.step pending x).1
        (groups ++ (Grouping.machine.step pending x).2) (n + 1) t' := by
  cases pending with
  | none =>
      have hgroups : groups ++ (Grouping.machine.step .none x).2 = groups := List.append_nil _
      rw [hgroups]
      exact h.place_min hroom x
  | one min =>
      have hgroups : groups ++ (Grouping.machine.step (.one min) x).2 = groups :=
        List.append_nil _
      rw [hgroups]
      exact h.place_max hroom x
  | two min max => exact h.place_url hroom x

end Placed

/-! ## What a target costs -/

/-- The characters a token takes, with a separator. -/
def Token.cost (x : Token) : Nat := x.chars.length + 1

/-- A url takes seven characters. -/
theorem length_of_isHttp {p : List Char} (h : isHttp p = true) : 7 ≤ p.length := by
  have htake : p.take 7 = httpPrefix := by simpa [isHttp] using h
  have hlen := congrArg List.length htake
  rw [List.length_take] at hlen
  have hprefix : httpPrefix.length = 7 := rfl
  omega

theorem cost_of_isTarget {group : Token × Token × Token} (h : isTarget group = true) :
    10 ≤ Grouping.groupWeight Token.cost group := by
  have hurl := length_of_isHttp h
  have htrim := length_documentedLine_le group.2.2.chars
  rw [Token.text] at hurl
  simp only [Grouping.groupWeight, Token.cost]
  omega

/-- Ten characters for each target. -/
theorem count_le (done : List Token) :
    10 * ((Grouping.machine.run .none done).2.filter isTarget).length ≤
      (done.map Token.cost).sum := by
  have hweight := Grouping.run_weight Token.cost done
  have hgroups : ∀ groups : List (Token × Token × Token),
      10 * (groups.filter isTarget).length ≤
        (groups.map (Grouping.groupWeight Token.cost)).sum := by
    intro groups
    induction groups with
    | nil => exact Nat.le_refl 0
    | cons group groups ih =>
        rw [List.map_cons, List.sum_cons]
        by_cases htarget : isTarget group = true
        · have hcost := cost_of_isTarget htarget
          rw [List.filter_cons_of_pos htarget, List.length_cons]
          omega
        · rw [List.filter_cons_of_neg htarget]
          omega
  have hcount := hgroups (Grouping.machine.run .none done).2
  omega

/-! ## The loop -/

/-- A token still reads as `trim` left it, whatever stands behind `front`. -/
def Settled (front : List Char) (x : Token) : Prop :=
  '\x00' ∈ front.drop x.pos ∧ (readAt front x.pos).chars = x.text

theorem Settled.extend {front args : List Char} {x : Token} (h : Settled front x)
    (hfront : front <+: args) : Settled args x := by
  obtain ⟨behind, rfl⟩ := hfront
  refine ⟨?_, by rw [readAt_append h.1, h.2]⟩
  rw [List.drop_append]
  exact List.mem_append_left _ h.1

/-- The tokens `done` have been placed and stand where they were found, and those
of `rest` are still to come. -/
structure Progress (tokens : List (List Char)) (done : List Token) (rest : List (List Char))
    (s : Setup F) : Prop where
  tokens_eq : done.map Token.chars ++ rest = tokens
  filled : Filled atof (Grouping.machine.run .none done).1 (Grouping.machine.run .none done).2
    s.n s.targets
  stands : ∃ front, Stands front rest s.scan ∧ ∀ x ∈ done, Settled front x

/-- All of them can still be read. -/
theorem Progress.read {tokens : List (List Char)} {done : List Token}
    {rest : List (List Char)} {s : Setup F} (h : Progress atof tokens done rest s) {x : Token}
    (hx : x ∈ done) : (readAt s.scan.args x.pos).chars = x.text := by
  obtain ⟨front, hstands, hsettled⟩ := h.stands
  exact ((hsettled x hx).extend hstands.in_front).2

/-- Strings as long as the arguments leave room in the table. -/
theorem Progress.room {tokens : List (List Char)} {done : List Token}
    {rest : List (List Char)} {s : Setup F} (h : Progress atof tokens done rest s)
    (hlen : (tokens.map fun token => token.length + 1).sum ≤ 1024) :
    s.targets.starfritcount < maxConf := by
  have hconf : maxConf = 128 := rfl
  have hcount := count_le done
  have hdone : (done.map Token.cost).sum ≤ (tokens.map fun token => token.length + 1).sum := by
    rw [← h.tokens_eq, List.map_append, List.sum_append, List.map_map]
    exact Nat.le_add_right _ _
  rw [h.filled.count_eq]
  omega

/-- One turn places the first of the tokens to come. -/
theorem Progress.turn (dm : DataModel) {tokens : List (List Char)} {done : List Token}
    {token : List Char} {rest : List (List Char)} {s : Setup F}
    (h : Progress atof tokens done (token :: rest) s)
    (hlen : (tokens.map fun token => token.length + 1).sum ≤ 1024) :
    ∃ p s', SetupStep dm atof s p s' ∧ Progress atof tokens (done ++ [⟨p, token⟩]) rest s' := by
  have hmax : intMax = 2147483647 := rfl
  obtain ⟨front, hstands, hsettled⟩ := h.stands
  obtain ⟨before, hfront, hp, hne, hread, hnext⟩ := hstands.turn
  have hshort : token.length + 1 ≤ 1024 := by
    refine Nat.le_trans (List.le_sum_of_mem ?_) hlen
    rw [← h.tokens_eq, List.map_append, List.map_cons]
    exact List.mem_append_right _ List.mem_cons_self
  have hstrlen : (readAt s.scan.args before.length).strlen = token.length := by
    rw [CString.strlen, hread]
  have hpos : 0 < token.length := List.length_pos_iff.mpr hne
  obtain ⟨r, hr, hchars, _⟩ :=
    trim_short dm (s := readAt s.scan.args before.length) (by omega) (by omega)
  obtain ⟨chars, hcells, hcellslen⟩ := trim_cells hr
  obtain ⟨behind, hwrite, hstands'⟩ := hnext chars (hcellslen.trans hstrlen)
  -- The trimmed token, in front of what stands behind it.
  have hsettled' : Settled (before ++ (chars ++ ['\x00'])) ⟨before.length, token⟩ := by
    refine ⟨by simp, ?_⟩
    rw [readAt, List.drop_left, ← hcells]
    show r.s.chars = _
    rw [hchars, hread, Token.text]
  have htext : (readAt (before ++ (chars ++ ['\x00']) ++ behind) before.length).chars =
      Token.text ⟨before.length, token⟩ :=
    (hsettled'.extend (List.prefix_append _ _)).2
  obtain ⟨t', hplace, hfilled⟩ :=
    h.filled.place (h.room atof hlen) ⟨before.length, token⟩
  refine ⟨before.length, ⟨s.n + 1, _, t'⟩, ⟨hp, ?_⟩, ?_, ?_, _, hstands', ?_⟩
  · rw [setupTurn, hr, placeTrimmed, hcells, hwrite, htext, hplace]
    rfl
  · rw [List.map_append, List.map_singleton, List.append_assoc, List.singleton_append,
      h.tokens_eq]
  · rw [Grouping.run_concat]
    exact hfilled
  · intro x hx
    rcases List.mem_append.mp hx with hx | hx
    · exact (hsettled x hx).extend (hfront.trans (List.prefix_append _ _))
    · rw [List.mem_singleton.mp hx]
      exact hsettled'

/-- The loop ends when all tokens have been placed. -/
theorem Progress.loop (dm : DataModel) {tokens : List (List Char)} {done : List Token}
    {rest : List (List Char)} {s : Setup F} (h : Progress atof tokens done rest s)
    (hlen : (tokens.map fun token => token.length + 1).sum ≤ 1024) {fuel : Nat}
    (hfuel : rest.length < fuel) :
    ∃ done' s', setupLoop dm atof fuel s = .ok s' ∧ Progress atof tokens done' [] s' := by
  induction rest generalizing done s fuel with
  | nil =>
      obtain ⟨fuel, rfl⟩ := Nat.exists_eq_add_one_of_ne_zero (Nat.ne_of_gt hfuel)
      obtain ⟨front, hstands, _⟩ := h.stands
      exact ⟨done, s, by rw [setupLoop, hstands.end_none], h⟩
  | cons token rest ih =>
      rw [List.length_cons] at hfuel
      obtain ⟨fuel, rfl⟩ := Nat.exists_eq_add_one_of_ne_zero (Nat.ne_zero_of_lt hfuel)
      obtain ⟨p, s', ⟨hp, hturn⟩, h'⟩ := h.turn atof dm hlen
      obtain ⟨done', s'', hloop, hend⟩ := ih h' (Nat.lt_of_succ_lt_succ hfuel)
      refine ⟨done', s'', ?_, hend⟩
      rw [setupLoop, hp]
      show (setupTurn dm atof s p >>= setupLoop dm atof fuel) = _
      rw [hturn, ok_bind, hloop]

/-- Whatever state the loop reaches, some tokens have been placed. -/
theorem Progress.reached (dm : DataModel) {tokens : List (List Char)} {s s' : Setup F}
    (h : Progress atof tokens [] tokens s)
    (hlen : (tokens.map fun token => token.length + 1).sum ≤ 1024) {ps : List Nat}
    (hrun : Steps (SetupStep dm atof) s ps s') :
    ∃ done rest, Progress atof tokens done rest s' := by
  refine hrun.invariant (fun _ s => ∃ done rest, Progress atof tokens done rest s)
    ⟨[], tokens, h⟩ ?_
  rintro ps t p u ⟨done, rest, hprogress⟩ ⟨hp, hturn⟩
  cases rest with
  | nil =>
      obtain ⟨front, hstands, _⟩ := hprogress.stands
      rw [hstands.end_none] at hp
      cases hp
  | cons token rest =>
      obtain ⟨p', u', ⟨hp', hturn'⟩, hnext⟩ := hprogress.turn atof dm hlen
      obtain rfl := Option.some.inj (hp.symm.trans hp')
      obtain rfl := Except.ok.inj (hturn.symm.trans hturn')
      exact ⟨_, _, hnext⟩

/-- Before the loop, all tokens are still to come. -/
theorem progress_start {t : Targets F} (hstart : t.starfritcount = 0) (args : CString) :
    Progress atof (tokensOf args.chars) [] (tokensOf args.chars) (Setup.start t args) where
  tokens_eq := rfl
  filled :=
    { turn := rfl
      count_eq := hstart
      counted_eq := by
        rw [Targets.counted]
        show t.starfritconf.take t.starfritcount = _
        rw [hstart]
        rfl
      begun := trivial }
  stands := ⟨[], strtok_stands [] args.noNul [], fun _ hx => absurd hx List.not_mem_nil⟩

/-- Strings that `conf.starfrit_args` can hold give all their tokens. -/
theorem starfrit_setup_progress (dm : DataModel) {t : Targets F} (hstart : t.starfritcount = 0)
    (led : Int) {args : CString} (hlen : args.strlen ≤ 1023) :
    ∃ done s, starfritSetup dm atof t led (some args) = .ok s ∧
      Progress atof (tokensOf args.chars) done [] s := by
  have hsum := sum_tokensOf_le args.chars
  have hfuel := Nat.lt_succ_of_le (length_tokensOf_le args.chars)
  exact (progress_start atof (t := { t with starfritLed := led }) hstart args).loop atof dm
    (Nat.le_trans hsum (Nat.succ_le_succ hlen)) hfuel

/-! ## Main result -/

/-- `starfrit_setup`, called once with any string that `conf.starfrit_args` can
hold, writes inside the table and returns, and whatever state its loop reaches,
the number of entries is below the size of the table. -/
theorem starfrit_setup_inBounds (dm : DataModel) {t : Targets F} (hstart : t.starfritcount = 0)
    (led : Int) {args : CString} (hlen : args.strlen ≤ 1023) :
    (∃ s, starfritSetup dm atof t led (some args) = .ok s) ∧
      ∀ ps s, Steps (SetupStep dm atof) (Setup.start { t with starfritLed := led } args) ps s →
        s.targets.starfritcount < maxConf := by
  have hsum := sum_tokensOf_le args.chars
  have hfits := Nat.le_trans hsum (Nat.succ_le_succ hlen)
  constructor
  · obtain ⟨_, s, hrun, _⟩ := starfrit_setup_progress atof dm hstart led hlen
    exact ⟨s, hrun⟩
  · intro ps s hrun
    obtain ⟨done, rest, hprogress⟩ :=
      (progress_start atof (t := { t with starfritLed := led }) hstart args).reached atof dm
        hfits hrun
    exact hprogress.room atof hfits

end Table

/-- The arguments `0;5;http://x`. -/
theorem starfrit_setup_inBounds_one :
    (∃ s, starfritSetup .ilp32 (fun text => (text.length : Int)) Targets.start 4
        (some (CString.ofBuffer ['0', ';', '5', ';', 'h', 't', 't', 'p', ':', '/', '/', 'x'])) =
          .ok s) ∧
      ∀ ps s,
        Steps (SetupStep .ilp32 fun text => (text.length : Int))
          (Setup.start { Targets.start with starfritLed := 4 }
            (CString.ofBuffer ['0', ';', '5', ';', 'h', 't', 't', 'p', ':', '/', '/', 'x']))
          ps s →
        s.targets.starfritcount < maxConf :=
  starfrit_setup_inBounds _ .ilp32 rfl 4 (by decide)

end IrBridge.Scale
