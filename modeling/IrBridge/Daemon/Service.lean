/-
  Daemon/Service.lean --- how long a client waits.

  An iteration serves the device before a connection, a connection before the
  clients, and of the clients the first one in the table that has something to
  say.  So a client waits for the device, for connections, and for the clients
  ahead of it; it waits for nothing else but the gaps, since a client directly
  behind one that is removed moves into its place and is not looked at in that
  pass.  Every gap moves it forward, which bounds the wait.

  `Pass` says what the loop over the indices of `clientPass` does to the table as
  a list.
-/
import IrBridge.Daemon.TableBounds

set_option autoImplicit false

namespace IrBridge.Daemon

open IrBridge.Foundation
open IrBridge.Platform

/-! ## A pass over the table -/

/-- A pass over a table: the clients it removes, and the one it serves. -/
inductive Pass (ready : Int → Prop) (recv : Int → ReadResult) :
    List Int → List Int → Option Int → Prop where
  | done : Pass ready recv [] [] none
  | unready {csock : Int} {rest gone : List Int} {served : Option Int} :
      ¬ ready csock → Pass ready recv rest gone served →
      Pass ready recv (csock :: rest) gone served
  | last {csock : Int} :
      ready csock → (recv csock).bytes = [] → Pass ready recv [csock] [csock] none
  /-- the next client moves into the gap -/
  | gone {csock next : Int} {rest gone : List Int} {served : Option Int} :
      ready csock → (recv csock).bytes = [] → Pass ready recv rest gone served →
      Pass ready recv (csock :: next :: rest) (csock :: gone) served
  | served {csock : Int} {rest : List Int} :
      ready csock → (recv csock).bytes ≠ [] →
      Pass ready recv (csock :: rest) [] (some csock)

/-- What is seen of a pass. -/
def passEvents (recv : Int → ReadResult) (gone : List Int) (served : Option Int) :
    List Event :=
  goneEvents gone ++ served.elim [] fun csock => servedEvents csock (recv csock).bytes

/-- A descriptor of the set that the pass does not skip. -/
def Looked (rdfs : List Int) (csock : Int) : Prop := 0 ≤ csock ∧ csock ∈ rdfs

theorem drop_eq_client (server : Server) {idx : Nat} (hidx : idx < server.count) :
    server.table.drop idx = server.client idx :: server.table.drop (idx + 1) := by
  rw [← Server.length_table] at hidx
  rw [server.client_eq hidx]
  exact List.drop_eq_getElem_cons hidx

/-- Removing the client at `idx` moves the rest up by one. -/
theorem drop_removeClient (server : Server) (hnodup : server.table.Nodup) {idx : Nat}
    (hidx : idx < server.count) :
    (server.removeClient (server.client idx)).table.drop (idx + 1) =
      server.table.drop (idx + 2) := by
  rw [server.removeClient_table (server.client_mem hidx)]
  rw [← Server.length_table] at hidx
  rw [server.client_eq hidx, hnodup.erase_getElem idx hidx, List.eraseIdx_eq_take_drop_succ,
    List.drop_append, List.length_take_of_le (Nat.le_of_lt hidx), Nat.add_sub_cancel_left,
    List.drop_of_length_le (by rw [List.length_take_of_le (Nat.le_of_lt hidx)]; omega),
    List.nil_append, List.drop_drop]

/-- The loop over the indices is a pass over what is left of the table. -/
theorem clientPass_pass (rdfs : List Int) (recv : Int → ReadResult) (idx : Nat)
    (server : Server) (hnodup : server.table.Nodup) :
    ∃ gone served, Pass (Looked rdfs) recv (server.table.drop idx) gone served ∧
      (clientPass rdfs recv idx server).1.table = server.table.diff gone ∧
      (clientPass rdfs recv idx server).2 = passEvents recv gone served := by
  fun_induction clientPass rdfs recv idx server with
  | case1 idx server hidx csocket hneg ih =>
      obtain ⟨gone, served, hpass, hrest⟩ := ih hnodup
      refine ⟨gone, served, ?_, hrest⟩
      rw [drop_eq_client server hidx]
      exact .unready (fun hlooked => absurd hlooked.1 (by omega)) hpass
  | case2 idx server hidx csocket hneg hunset ih =>
      obtain ⟨gone, served, hpass, hrest⟩ := ih hnodup
      refine ⟨gone, served, ?_, hrest⟩
      rw [drop_eq_client server hidx]
      exact .unready (fun hlooked => hunset hlooked.2) hpass
  | case3 idx server hidx csocket hneg hset hzero rest ih =>
      have hlooked : Looked rdfs csocket := ⟨Int.not_lt.mp hneg, not_not.mp hset⟩
      have hbytes := (Server.readClient_eq_zero_iff _).mp hzero
      have hmem : csocket ∈ server.table := server.client_mem hidx
      have htable := server.removeClient_table hmem
      obtain ⟨gone, served, hpass, hleft, hevents⟩ := ih (htable ▸ hnodup.erase csocket)
      rw [drop_removeClient server hnodup hidx] at hpass
      rw [htable, ← List.diff_cons] at hleft
      refine ⟨csocket :: gone, served, ?_, hleft,
        congrArg (.clientRead csocket [] :: .closed csocket :: ·) hevents⟩
      rw [drop_eq_client server hidx]
      by_cases hlast : idx + 1 < server.count
      · rw [drop_eq_client server hlast]
        exact .gone hlooked hbytes hpass
      · have hlength := server.length_table
        rw [List.drop_of_length_le (by omega)] at hpass ⊢
        cases hpass
        exact .last hlooked hbytes
  | case4 idx server hidx csocket hneg hset hsome =>
      refine ⟨[], some csocket, ?_, rfl, rfl⟩
      rw [drop_eq_client server hidx]
      exact .served ⟨Int.not_lt.mp hneg, not_not.mp hset⟩
        fun hbytes => hsome ((Server.readClient_eq_zero_iff _).mpr hbytes)
  | case5 idx server hidx =>
      refine ⟨[], none, ?_, rfl, rfl⟩
      rw [List.drop_eq_nil_of_le (by rw [Server.length_table]; omega)]
      exact .done

/-- The clients removed are clients of the table, in its order. -/
theorem Pass.sublist {ready : Int → Prop} {recv : Int → ReadResult} {table gone : List Int}
    {served : Option Int} (h : Pass ready recv table gone served) : gone.Sublist table := by
  induction h with
  | done => exact List.Sublist.refl []
  | unready _ _ ih => exact ih.cons _
  | last _ _ => exact List.Sublist.refl _
  | gone _ _ _ ih => exact (ih.cons _).cons_cons _
  | served _ _ => exact List.nil_sublist _

/-- They have nothing to say. -/
theorem Pass.gone_of {ready : Int → Prop} {recv : Int → ReadResult} {table gone : List Int}
    {served : Option Int} (h : Pass ready recv table gone served) :
    ∀ csock ∈ gone, (recv csock).bytes = [] := by
  induction h with
  | done => simp
  | unready _ _ ih => exact ih
  | last _ hbytes => simpa using hbytes
  | gone _ hbytes _ ih =>
      intro csock hcsock
      rcases List.mem_cons.mp hcsock with rfl | hcsock
      · exact hbytes
      · exact ih csock hcsock
  | served _ _ => simp

/-! ## The clients ahead -/

/-- The clients that come before `csock` in the table. -/
def ahead (csock : Int) (table : List Int) : List Int := table.takeWhile (· ≠ csock)

theorem ahead_cons_self (csock : Int) (rest : List Int) : ahead csock (csock :: rest) = [] :=
  List.takeWhile_cons_of_neg (by simp)

theorem ahead_cons_ne {csock other : Int} (hne : other ≠ csock) (rest : List Int) :
    ahead csock (other :: rest) = other :: ahead csock rest :=
  List.takeWhile_cons_of_pos (by simpa using hne)

/-- A connection goes behind. -/
theorem ahead_append {csock : Int} {table : List Int} (hmem : csock ∈ table)
    (more : List Int) : ahead csock (table ++ more) = ahead csock table := by
  induction table with
  | nil => exact absurd hmem List.not_mem_nil
  | cons other rest ih =>
      by_cases hother : other = csock
      · subst hother
        rw [List.cons_append, ahead_cons_self, ahead_cons_self]
      · have hrest := (List.mem_cons.mp hmem).resolve_left (Ne.symm hother)
        rw [List.cons_append, ahead_cons_ne hother, ahead_cons_ne hother, ih hrest]

/-- A client that leaves is no longer ahead. -/
theorem ahead_erase {csock other : Int} (hne : other ≠ csock) (table : List Int) :
    ahead csock (table.erase other) = (ahead csock table).erase other := by
  induction table with
  | nil => rfl
  | cons first rest ih =>
      by_cases hother : first = other
      · subst hother
        rw [List.erase_cons_head, ahead_cons_ne hne, List.erase_cons_head]
      · rw [List.erase_cons_tail (by simpa using hother)]
        by_cases hfirst : first = csock
        · subst hfirst
          rw [ahead_cons_self, ahead_cons_self]
          rfl
        · rw [ahead_cons_ne hfirst, ahead_cons_ne hfirst,
            List.erase_cons_tail (by simpa using hother), ih]

theorem ahead_diff {csock : Int} {gone : List Int} (hgone : csock ∉ gone)
    (table : List Int) : ahead csock (table.diff gone) = (ahead csock table).diff gone := by
  induction gone generalizing table with
  | nil => rfl
  | cons other gone ih =>
      rw [List.mem_cons, not_or] at hgone
      rw [List.diff_cons, List.diff_cons, ih hgone.2, ahead_erase (Ne.symm hgone.1)]

/-- One that was in the table makes it shorter by leaving. -/
theorem length_diff_lt {csock : Int} {gone table : List Int} (hgone : csock ∈ gone)
    (hmem : csock ∈ table) : (table.diff gone).length < table.length := by
  induction gone generalizing table with
  | nil => exact absurd hgone List.not_mem_nil
  | cons other gone ih =>
      rw [List.diff_cons]
      by_cases hother : csock = other
      · subst hother
        have hshorter := (List.diff_sublist (table.erase csock) gone).length_le
        have hpos := List.length_pos_of_mem hmem
        rw [List.length_erase_of_mem hmem] at hshorter
        omega
      · have hrest := ih ((List.mem_cons.mp hgone).resolve_left hother)
          ((List.mem_erase_of_ne hother).mpr hmem)
        exact Nat.lt_of_lt_of_le hrest List.erase_sublist.length_le

/-- A pass that finds `csock` with something to say serves it, or serves a
client ahead of it, or removes one ahead of it. -/
theorem Pass.reaches {ready : Int → Prop} {recv : Int → ReadResult} {table gone : List Int}
    {served : Option Int} (h : Pass ready recv table gone served) {csock : Int}
    (hmem : csock ∈ table) (hready : ready csock) (hblock : (recv csock).bytes ≠ []) :
    served = some csock ∨
      (∃ other ∈ ahead csock table, served = some other ∧ (recv other).bytes ≠ []) ∨
      ∃ other ∈ ahead csock table, other ∈ gone := by
  induction h with
  | done => exact absurd hmem List.not_mem_nil
  | @unready other rest gone served hunready _ ih =>
      have hne : other ≠ csock := fun heq => hunready (heq ▸ hready)
      have hrest := (List.mem_cons.mp hmem).resolve_left (Ne.symm hne)
      rw [ahead_cons_ne hne]
      rcases ih hrest with hserved | ⟨before, hbefore, hserved⟩ | ⟨before, hbefore, hgone⟩
      · exact .inl hserved
      · exact .inr (.inl ⟨before, List.mem_cons_of_mem _ hbefore, hserved⟩)
      · exact .inr (.inr ⟨before, List.mem_cons_of_mem _ hbefore, hgone⟩)
  | last _ hbytes => exact absurd (List.mem_singleton.mp hmem ▸ hbytes) hblock
  | @gone other next rest gone served _ hbytes _ _ =>
      have hne : other ≠ csock := fun heq => hblock (heq ▸ hbytes)
      refine .inr (.inr ⟨other, ?_, List.mem_cons_self⟩)
      rw [ahead_cons_ne hne]
      exact List.mem_cons_self
  | @served other rest _ hother =>
      by_cases hne : other = csock
      · exact .inl (congrArg some hne)
      · refine .inr (.inl ⟨other, ?_, rfl, hother⟩)
        rw [ahead_cons_ne hne]
        exact List.mem_cons_self

/-! ## One iteration -/

/-- An iteration, with what its calls returned and what it did. -/
def Bridge.Observed (cfg : Config) (b : Bridge) (label : Round × List Event) (b' : Bridge) :
    Prop :=
  b.phase = .serving ∧ b.iterate cfg label.1 = (b', label.2) ∧ b.Admits label.2

theorem Bridge.Observed.step {cfg : Config} {b b' : Bridge} {label : Round × List Event}
    (h : Bridge.Observed cfg b label b') : Bridge.Step cfg b label.2 b' :=
  ⟨⟨h.1, label.1, h.2.1⟩, h.2.2⟩

/-- The client has something to say: `select` reports its socket, and `recv` gets
bytes. -/
def Speaks (csock : Int) (round : Round) : Prop :=
  (∃ set, round.select = .ready set ∧ set csock = true) ∧ (round.recv csock).bytes ≠ []

/-- The iteration went elsewhere: to the device, to a connection, or to one of
these clients. -/
def Event.elsewhere (clients : List Int) : Event → Bool
  | .irRead _ => true
  | .accepted _ => true
  | .acceptFailed => true
  | .clientRead csock (_ :: _) => decide (csock ∈ clients)
  | _ => false

theorem Event.elsewhere_clientRead {clients : List Int} {csock : Int} {block : List Byte}
    (hmem : csock ∈ clients) (hblock : block ≠ []) :
    Event.elsewhere clients (.clientRead csock block) = true := by
  cases block with
  | nil => exact absurd rfl hblock
  | cons byte block => exact decide_eq_true hmem

theorem lt_maxFd {d : Int} {rdfs : List Int} (hmem : d ∈ rdfs) : d < maxFd rdfs := by
  have hle : ∀ a : Int, d ≤ rdfs.foldl max a := by
    induction rdfs with
    | nil => exact absurd hmem List.not_mem_nil
    | cons first rest ih =>
        intro a
        rcases List.mem_cons.mp hmem with rfl | hrest
        · exact Int.le_trans (Int.le_max_right a d) (le_foldl_max _ rest)
        · exact ih hrest (max a first)
  exact Int.lt_add_one_of_le (hle 0)

/-- `select` leaves in the set the descriptors waited for that are ready. -/
theorem mem_selected {d : Int} {rdfs : List Int} {set : Int → Bool} :
    d ∈ selected rdfs set ↔ d ∈ rdfs ∧ set d = true := by
  rw [selected, List.mem_filter, decide_eq_true_iff]
  exact and_congr_right fun hmem => and_iff_right (lt_maxFd hmem)

theorem mem_watched_of_table (cfg : Config) {server : Server} {csock : Int}
    (hmem : csock ∈ server.table) (hpos : 0 < csock) : csock ∈ watched cfg server := by
  have hclients : (List.range server.count).map server.client = server.table := by
    have := server.map_range_count id fun idx hidx => server.client_eq hidx
    rwa [List.map_id] at this
  rw [watched, hclients]
  refine List.mem_cons_of_mem _ (List.mem_cons_of_mem _ ?_)
  exact List.mem_filter.mpr ⟨hmem, decide_eq_true hpos⟩

theorem irBranch_spec (cfg : Config) (c : ReadResult) (b : Bridge) :
    (b.irBranch cfg c).1.server = b.server ∧
      (b.irBranch cfg c).2 = .irRead c.bytes ::
        if c.result > 0 then b.server.writeToallclients c.bytes else [] := by
  rw [Bridge.irBranch]
  split
  · split
    · exact ⟨rfl, rfl⟩
    · exact ⟨rfl, rfl⟩
  · exact ⟨rfl, rfl⟩

theorem acceptBranch_spec (csock : Int) (b : Bridge)
    (hadmits : b.Admits (b.acceptBranch csock).2) :
    ((b.acceptBranch csock).1.server.table = b.server.table ∧
        (b.acceptBranch csock).2 = [.acceptFailed]) ∨
      (b.acceptBranch csock).1.server.table = b.server.table ++ [csock] ∧
        (b.acceptBranch csock).2 = [.accepted csock] := by
  rw [Bridge.acceptBranch] at hadmits ⊢
  split
  · exact .inl ⟨rfl, rfl⟩
  · rename_i hdescriptor
    rw [if_neg hdescriptor] at hadmits
    by_cases hroom : b.server.count < maxClients
    · obtain ⟨server', hadd, htable⟩ := Server.addClient_table b.server csock hroom
      rw [hadd]
      exact .inr ⟨htable, rfl⟩
    · have hadd : b.server.addClient csock = .error .writeOutside := dif_neg hroom
      rw [hadd] at hadmits
      exact absurd (hadmits csock (List.mem_singleton_self _)).2 hroom

/-- What an iteration can do once `select` has returned: it reads the device, or
accepts, or passes over the clients. -/
theorem Bridge.Observed.branches {cfg : Config} {b b' : Bridge} {round : Round}
    {events : List Event} (h : Bridge.Observed cfg b (round, events) b') {set : Int → Bool}
    (hselect : round.select = .ready set) (hnodup : b.server.table.Nodup) :
    (b'.server.table = b.server.table ∧
        events = .irRead round.irRead.bytes ::
          if round.irRead.result > 0 then
            b.server.table.map (.sent · round.irRead.bytes) else []) ∨
      (∃ more, b'.server.table = b.server.table ++ more ∧
        (more = [] ∧ events = [.acceptFailed] ∨
          more = [round.accept] ∧ events = [.accepted round.accept])) ∨
      ∃ gone served,
        Pass (Looked (selected (watched cfg b.server) set)) round.recv b.server.table gone
          served ∧
        b'.server.table = b.server.table.diff gone ∧
        events = passEvents round.recv gone served := by
  obtain ⟨_, hround, hadmits⟩ := h
  dsimp only at hround hadmits
  rw [Bridge.iterate, hselect] at hround
  dsimp only at hround
  generalize selected (watched cfg b.server) set = rdfs at hround ⊢
  by_cases hfd : cfg.fd ∈ rdfs
  · rw [if_pos hfd] at hround
    obtain ⟨hserver, hevents⟩ := irBranch_spec cfg round.irRead b
    rw [hround, Server.writeToallclients_eq] at hevents
    rw [hround] at hserver
    exact .inl ⟨congrArg Server.table hserver, hevents⟩
  · rw [if_neg hfd] at hround
    by_cases hsock : cfg.sock ∈ rdfs
    · rw [if_pos hsock] at hround
      have haccept := acceptBranch_spec round.accept b (by rw [hround]; exact hadmits)
      rw [hround] at haccept
      rcases haccept with ⟨htable, hevents⟩ | ⟨htable, hevents⟩
      · exact .inr (.inl ⟨[], by rw [htable, List.append_nil], .inl ⟨rfl, hevents⟩⟩)
      · exact .inr (.inl ⟨[round.accept], htable, .inr ⟨rfl, hevents⟩⟩)
    · rw [if_neg hsock] at hround
      obtain ⟨gone, served, hpass, htable, hevents⟩ :=
        clientPass_pass rdfs round.recv 0 b.server hnodup
      obtain ⟨hb', hevents'⟩ := Prod.mk.inj hround
      rw [List.drop_zero] at hpass
      rw [hevents'] at hevents
      rw [← hb']
      exact .inr (.inr ⟨gone, served, hpass, htable, hevents⟩)

/-- A client that has something to say and is not read is kept, and it moves
forward, or the iteration goes elsewhere. -/
theorem Bridge.Observed.waits {cfg : Config} {b b' : Bridge} {label : Round × List Event}
    (h : Bridge.Observed cfg b label b') {csock : Int} {clients : List Int}
    (hnodup : b.server.table.Nodup) (hmem : csock ∈ b.server.table)
    (hahead : ahead csock b.server.table ⊆ clients) (hpos : 0 < csock)
    (hspeaks : Speaks csock label.1)
    (hunread : ∀ block, .clientRead csock block ∉ label.2) :
    csock ∈ b'.server.table ∧ ahead csock b'.server.table ⊆ clients ∧
      (ahead csock b'.server.table).length + 1 ≤
        (ahead csock b.server.table).length + label.2.countP (Event.elsewhere clients) := by
  obtain ⟨round, events⟩ := label
  obtain ⟨⟨set, hselect, hset⟩, hblock⟩ := hspeaks
  dsimp only at hselect hblock hunread ⊢
  -- Whoever else has the iteration, the clients ahead stay as they are.
  have hother : ∀ event ∈ events, Event.elsewhere clients event = true →
      ∀ more, b'.server.table = b.server.table ++ more →
      csock ∈ b'.server.table ∧ ahead csock b'.server.table ⊆ clients ∧
        (ahead csock b'.server.table).length + 1 ≤
          (ahead csock b.server.table).length + events.countP (Event.elsewhere clients) := by
    intro event hevent helsewhere more hmore
    have hcount := List.countP_pos_iff.mpr ⟨event, hevent, helsewhere⟩
    rw [hmore, ahead_append hmem]
    exact ⟨List.mem_append_left more hmem, hahead, by omega⟩
  rcases h.branches hselect hnodup with ⟨htable, rfl⟩ | ⟨more, hmore, hevents⟩ |
    ⟨gone, served, hpass, htable, rfl⟩
  · exact hother _ List.mem_cons_self rfl [] (by rw [htable, List.append_nil])
  · rcases hevents with ⟨_, rfl⟩ | ⟨_, rfl⟩
    · exact hother _ (List.mem_singleton_self _) rfl more hmore
    · exact hother _ (List.mem_singleton_self _) rfl more hmore
  · have hready : Looked (selected (watched cfg b.server) set) csock :=
      ⟨hpos.le, mem_selected.mpr ⟨mem_watched_of_table cfg hmem hpos, hset⟩⟩
    have hgone : csock ∉ gone := fun hcsock => hblock (hpass.gone_of csock hcsock)
    have hkept := List.mem_diff_of_mem hmem hgone
    have hsublist := List.diff_sublist (ahead csock b.server.table) gone
    rw [htable, ahead_diff hgone]
    refine ⟨hkept, fun other hother => hahead (hsublist.subset hother), ?_⟩
    rcases hpass.reaches hmem hready hblock with rfl | hserved | hleft
    · exact absurd (List.mem_append_right _ List.mem_cons_self) (hunread _)
    · obtain ⟨other, hbefore, rfl, hsays⟩ := hserved
      have hcount : 0 < (passEvents round.recv gone (some other)).countP
          (Event.elsewhere clients) :=
        List.countP_pos_iff.mpr ⟨.clientRead other (round.recv other).bytes,
          List.mem_append_right _ List.mem_cons_self,
          Event.elsewhere_clientRead (hahead hbefore) hsays⟩
      have := hsublist.length_le
      omega
    · obtain ⟨other, hbefore, hother⟩ := hleft
      have := length_diff_lt hother hbefore
      omega

/-! ## Waiting -/

/-- While a client has something to say and is not read, every iteration goes to
the device, to a connection or to a client ahead of it, except for as many as
there are clients ahead of it. -/
theorem wait_bounded {cfg : Config} {trace : List (List Event)} {b b' : Bridge}
    {labels : List (Round × List Event)}
    (hbefore : Steps (Bridge.Step cfg) Bridge.start trace b)
    (hwait : Steps (Bridge.Observed cfg) b labels b') {csock : Int}
    (hmem : csock ∈ b.server.table) (hpos : 0 < csock)
    (hspeaks : ∀ label ∈ labels, Speaks csock label.1)
    (hunread : ∀ label ∈ labels, ∀ block, .clientRead csock block ∉ label.2) :
    csock ∈ b'.server.table ∧
      labels.length + (ahead csock b'.server.table).length ≤
        (ahead csock b.server.table).length +
          (labels.map fun label =>
            label.2.countP (Event.elsewhere (ahead csock b.server.table))).sum := by
  have hnodup := (relay_invariant (Bridge.run_relays hbefore)).nodup
  have hwaits := hwait.restrict (fun label => Speaks csock label.1 ∧
    ∀ block, .clientRead csock block ∉ label.2) fun label hlabel =>
      ⟨hspeaks label hlabel, hunread label hlabel⟩
  obtain ⟨⟨_, hkept, _⟩, hlength⟩ := hwaits.length_le
    (fun now => now.server.table.Nodup ∧ csock ∈ now.server.table ∧
      ahead csock now.server.table ⊆ ahead csock b.server.table)
    (fun now => (ahead csock now.server.table).length)
    (fun label => label.2.countP (Event.elsewhere (ahead csock b.server.table)))
    (fun now label next hnow hstep => by
      obtain ⟨⟨hspeaks, hunread⟩, hobserved⟩ := hstep
      obtain ⟨_, hrelays⟩ := hobserved.step.relays
      obtain ⟨hkept, hahead, hpaid⟩ :=
        hobserved.waits hnow.1 hnow.2.1 hnow.2.2 hpos hspeaks hunread
      exact ⟨⟨hrelays.relays.nodup hnow.1, hkept, hahead⟩, hpaid⟩)
    ⟨hnodup, hmem, List.Subset.refl _⟩
  exact ⟨hkept, hlength⟩

/-- Clients 5 and 6 are connected. -/
def twoClients : Bridge :=
  ((Bridge.start.iterate plainBridge (newConnection 5)).1.iterate plainBridge
    (newConnection 6)).1

theorem twoClients_run :
    Steps (Bridge.Step plainBridge) Bridge.start [[.accepted 5], [.accepted 6]] twoClients := by
  have hfirst : Bridge.Step plainBridge Bridge.start [.accepted 5]
      (Bridge.start.iterate plainBridge (newConnection 5)).1 :=
    ⟨⟨rfl, newConnection 5, Prod.ext rfl (by decide +kernel)⟩, by decide +kernel⟩
  refine (Steps.refl.snoc hfirst).snoc ⟨⟨?_, newConnection 6, Prod.ext rfl ?_⟩, ?_⟩
  · decide +kernel
  · decide +kernel
  · decide +kernel

theorem oneByte_fits : ([2] : List Byte).length ≤ bufSize := by decide

theorem noByte_fits : ([] : List Byte).length ≤ bufSize := Nat.zero_le _

/-- Client 5 is gone and client 6 says one byte. -/
def firstLeaves : Round where
  irRead := .failed
  accept := -1
  recv := fun csock => if csock = 6 then .got [2] oneByte_fits else .got [] noByte_fits
  select := .ready fun d => d = 5 ∨ d = 6

/-- Client 6 is passed over once, when client 5 leaves. -/
theorem wait_bounded_gap :
    6 ∈ (twoClients.iterate plainBridge firstLeaves).1.server.table ∧
      1 + (ahead 6 (twoClients.iterate plainBridge firstLeaves).1.server.table).length ≤
        (ahead 6 twoClients.server.table).length +
          [Event.clientRead 5 [], .closed 5].countP
            (Event.elsewhere (ahead 6 twoClients.server.table)) := by
  have hobserved : Bridge.Observed plainBridge twoClients
      (firstLeaves, [.clientRead 5 [], .closed 5])
      (twoClients.iterate plainBridge firstLeaves).1 :=
    ⟨by decide +kernel, Prod.ext rfl (by decide +kernel), by decide +kernel⟩
  have hwait := wait_bounded twoClients_run (Steps.refl.snoc hobserved)
    (show (6 : Int) ∈ twoClients.server.table by decide +kernel) (by decide) (by
      intro label hlabel
      obtain rfl := List.mem_singleton.mp hlabel
      exact ⟨⟨_, rfl, by decide⟩, by decide⟩)
    (by
      intro label hlabel block
      obtain rfl := List.mem_singleton.mp hlabel
      simp)
  simpa using hwait

/-! ## Starvation -/

/-- An iteration in which the first client of the table has something to say
reads nobody else. -/
theorem Bridge.Observed.first {cfg : Config} {b b' : Bridge} {label : Round × List Event}
    (h : Bridge.Observed cfg b label b') {csock : Int} {rest : List Int}
    (hnodup : b.server.table.Nodup) (htable : b.server.table = csock :: rest)
    (hpos : 0 < csock) (hspeaks : Speaks csock label.1) :
    (∃ more, b'.server.table = csock :: (rest ++ more)) ∧
      ∀ other, (∀ block, .clientRead other block ∈ label.2 → other = csock) ∧
        .closed other ∉ label.2 := by
  obtain ⟨round, events⟩ := label
  obtain ⟨⟨set, hselect, hset⟩, hblock⟩ := hspeaks
  dsimp only at hselect hblock ⊢
  rcases h.branches hselect hnodup with ⟨hsame, rfl⟩ | ⟨more, hmore, hevents⟩ |
    ⟨gone, served, hpass, hleft, rfl⟩
  · refine ⟨⟨[], by rw [hsame, htable, List.append_nil]⟩, fun other => ⟨?_, ?_⟩⟩
    · intro block hread
      split at hread <;> simp at hread
    · intro hclosed
      split at hclosed <;> simp at hclosed
  · refine ⟨⟨more, by rw [hmore, htable, List.cons_append]⟩, fun other => ?_⟩
    rcases hevents with ⟨_, rfl⟩ | ⟨_, rfl⟩
    · simp
    · simp
  · have hmem : csock ∈ b.server.table := htable ▸ List.mem_cons_self
    have hready : Looked (selected (watched cfg b.server) set) csock :=
      ⟨hpos.le, mem_selected.mpr ⟨mem_watched_of_table cfg hmem hpos, hset⟩⟩
    rw [htable] at hpass
    rw [hleft, htable]
    cases hpass with
    | unready hunready => exact absurd hready hunready
    | last _ hbytes => exact absurd hbytes hblock
    | gone _ hbytes => exact absurd hbytes hblock
    | served =>
        refine ⟨⟨[], by rw [List.append_nil]; rfl⟩, fun other => ?_⟩
        simp only [passEvents, goneEvents, servedEvents, List.flatMap_nil, List.nil_append,
          Option.elim_some]
        constructor
        · intro block hread
          simp only [List.mem_cons, Event.clientRead.injEq, reduceCtorEq, List.not_mem_nil,
            or_false] at hread
          exact hread.1
        · simp

/-- While the first client of the table has something to say in every iteration,
nobody else is read, and nobody who is gone is removed. -/
theorem first_client_starves {cfg : Config} {trace : List (List Event)} {b b' : Bridge}
    {labels : List (Round × List Event)}
    (hbefore : Steps (Bridge.Step cfg) Bridge.start trace b)
    (hrun : Steps (Bridge.Observed cfg) b labels b') {csock : Int} {rest : List Int}
    (htable : b.server.table = csock :: rest) (hpos : 0 < csock)
    (hspeaks : ∀ label ∈ labels, Speaks csock label.1) :
    (∃ more, b'.server.table = csock :: (rest ++ more)) ∧
      ∀ label ∈ labels, ∀ other,
        (∀ block, .clientRead other block ∈ label.2 → other = csock) ∧
          .closed other ∉ label.2 := by
  have hnodup := (relay_invariant (Bridge.run_relays hbefore)).nodup
  refine (hrun.invariant (fun done now => (∀ label ∈ done, Speaks csock label.1) →
    now.server.table.Nodup ∧ (∃ more, now.server.table = csock :: (rest ++ more)) ∧
      ∀ label ∈ done, ∀ other, (∀ block, .clientRead other block ∈ label.2 → other = csock) ∧
        .closed other ∉ label.2) ?_ ?_ hspeaks).2
  · exact fun _ => ⟨hnodup, ⟨[], by rw [List.append_nil, htable]⟩, by simp⟩
  · intro done now label next hdone hstep hspeaks
    obtain ⟨hnodup, ⟨more, hmore⟩, hread⟩ :=
      hdone fun label hlabel => hspeaks label (List.mem_append_left _ hlabel)
    obtain ⟨⟨more', hmore'⟩, hlast⟩ := hstep.first hnodup hmore hpos
      (hspeaks label (List.mem_append_right _ (List.mem_singleton_self _)))
    obtain ⟨_, hrelays⟩ := hstep.step.relays
    refine ⟨hrelays.relays.nodup hnodup, ⟨more ++ more', ?_⟩, ?_⟩
    · rw [hmore', List.append_assoc]
    · intro label' hlabel'
      rcases List.mem_append.mp hlabel' with hlabel' | hlabel'
      · exact hread label' hlabel'
      · rw [List.mem_singleton.mp hlabel']
        exact hlast

/-- Client 5 says one byte, and client 6 is gone. -/
def firstSpeaks : Round where
  irRead := .failed
  accept := -1
  recv := fun csock => if csock = 5 then .got [2] oneByte_fits else .got [] noByte_fits
  select := .ready fun d => d = 5 ∨ d = 6

/-- Client 6 is gone, but stays in the table for as long as client 5 speaks. -/
theorem first_client_starves_neighbour :
    ∃ more, (twoClients.iterate plainBridge firstSpeaks).1.server.table =
      5 :: ([6] ++ more) := by
  have hobserved : Bridge.Observed plainBridge twoClients (firstSpeaks, servedEvents 5 [2])
      (twoClients.iterate plainBridge firstSpeaks).1 :=
    ⟨by decide +kernel, Prod.ext rfl (by decide +kernel), by decide +kernel⟩
  exact (first_client_starves twoClients_run (Steps.refl.snoc hobserved)
    (show twoClients.server.table = [5, 6] by decide +kernel) (by decide) (by
      intro label hlabel
      obtain rfl := List.mem_singleton.mp hlabel
      exact ⟨⟨_, rfl, by decide⟩, by decide⟩)).1

end IrBridge.Daemon
