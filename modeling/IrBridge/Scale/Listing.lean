/-
  Scale/Listing.lean --- the targets a well-formed list stands for.

  A list of targets is written as fields with semicolons between them, each with
  white characters around it, and perhaps a last semicolon.  Its tokens are its
  fields, and perhaps a last one of blanks (`tokensOf_listing`), so that the groups
  `starfrit_setup` stores are its triples (`groups_listing`).  The entries that
  count are exactly the targets, in order.
-/
import IrBridge.Scale.Targets

set_option autoImplicit false

namespace IrBridge.Scale

open IrBridge.Config
open IrBridge.Foundation
open IrBridge.Platform

/-! ## Lists of targets -/

/-- A field: a text without semicolons, blanks, `#` and trailing backslash, and
the white characters around it. -/
structure Field where
  text : CString
  before : List Char
  after : List Char
  text_ne : text.chars ≠ []
  free : ∀ c ∈ text.chars, c ≠ ';' ∧ c ≠ '#' ∧ isBlank c = false
  first : ∀ c ∈ text.chars.head?, isWhite c = false
  last : ∀ c ∈ text.chars.getLast?, isWhite c = false ∧ c ≠ '\\'
  before_white : ∀ c ∈ before, isWhite c = true
  after_white : ∀ c ∈ after, isWhite c = true

/-- The field as it stands in the list. -/
def Field.chars (f : Field) : List Char := f.before ++ (f.text.chars ++ f.after)

/-- A lower bound, an upper bound and a url. -/
structure Triple where
  min : Field
  max : Field
  url : Field

namespace Triple

/-- The fields, in order. -/
def fields (x : Triple) : List Field := [x.min, x.max, x.url]

/-- The url starts with `http://`. -/
def isTarget (x : Triple) : Bool := httpPrefix.isPrefixOf x.url.text.chars

/-- The entry a triple stands for: its bounds, 0 in place of a negative one, and its
url. -/
def target {F : Type} [Zero F] [LT F] [DecidableLT F] (atof : List Char → F) (x : Triple) :
    Target F CString where
  min := if atof x.min.text.chars < 0 then 0 else atof x.min.text.chars
  max := if atof x.max.text.chars < 0 then 0 else atof x.max.text.chars
  url := some x.url.text

end Triple

/-- The fields of a list of triples, with `;` between them. -/
def listing (triples : List Triple) : List Char :=
  [';'].intercalate ((triples.flatMap Triple.fields).map Field.chars)

/-- Nothing, or a semicolon and blanks. -/
def Ending (ending : List Char) : Prop :=
  ending = [] ∨ ∃ blanks, ending = ';' :: blanks ∧ ∀ c ∈ blanks, isWhite c = true

/-! ## Its tokens -/

/-- White characters are no semicolons. -/
theorem not_mem_of_white {blanks : List Char} (hblanks : ∀ c ∈ blanks, isWhite c = true) :
    ';' ∉ blanks :=
  fun hmem => absurd (hblanks ';' hmem) (by decide)

theorem Field.not_mem_chars (f : Field) : ';' ∉ f.chars := by
  rw [Field.chars, List.mem_append, List.mem_append]
  rintro (hmem | hmem | hmem)
  · exact not_mem_of_white f.before_white hmem
  · exact (f.free ';' hmem).1 rfl
  · exact not_mem_of_white f.after_white hmem

theorem Field.chars_ne (f : Field) : f.chars ≠ [] := fun hnil =>
  f.text_ne (List.append_eq_nil_iff.mp (List.append_eq_nil_iff.mp hnil).2).1

/-- The tokens of a list without a last semicolon are its fields. -/
theorem tokensOf_fields (fields : List Field) :
    tokensOf ([';'].intercalate (fields.map Field.chars)) = fields.map Field.chars := by
  cases fields with
  | nil => rfl
  | cons f fields =>
      rw [tokensOf, List.splitOn_intercalate]
      · apply List.filter_eq_self.mpr
        intro token hmem
        obtain ⟨g, _, rfl⟩ := List.mem_map.mp hmem
        exact decide_eq_true g.chars_ne
      · intro token hmem
        obtain ⟨g, _, rfl⟩ := List.mem_map.mp hmem
        exact g.not_mem_chars
      · exact List.cons_ne_nil _ _

/-- A last semicolon adds at most one token, of blanks. -/
theorem tokensOf_listing (triples : List Triple) {ending : List Char} (hending : Ending ending) :
    ∃ rest, tokensOf (listing triples ++ ending) =
        (triples.flatMap Triple.fields).map Field.chars ++ rest ∧ rest.length ≤ 1 := by
  have hfields := tokensOf_fields (triples.flatMap Triple.fields)
  rw [← listing] at hfields
  rcases hending with rfl | ⟨blanks, rfl, hblanks⟩
  · exact ⟨[], by rw [List.append_nil, List.append_nil, hfields], Nat.zero_le _⟩
  · refine ⟨[blanks].filter fun token => token ≠ [], ?_, List.length_filter_le _ _⟩
    rw [tokensOf, List.splitOn_append_cons_self, List.filter_append, ← tokensOf, hfields,
      List.splitOn_eq_singleton (not_mem_of_white hblanks)]

/-- What `trim` leaves of a field is its text. -/
theorem Field.documentedLine_chars (f : Field) : documentedLine f.chars = (f.text.chars, false) :=
  documentedLine_plain f.before_white f.after_white f.text_ne (fun c hc => (f.free c hc).2.1)
    f.first f.last

/-- What `trim` leaves of a token that is a field is its text. -/
theorem Token.text_of_field {x : Token} {f : Field} (h : x.chars = f.chars) :
    x.text = f.text.chars := by
  rw [Token.text, h, f.documentedLine_chars]

/-! ## Its groups -/

section Setup

variable {F : Type} [Zero F] [LT F] [DecidableLT F] (dm : DataModel) (atof : List Char → F)

/-- An entry as it reads, with the string its url points to. -/
def Target.shown {F : Type} (args : List Char) (e : Target F Nat) : Target F CString :=
  ⟨e.min, e.max, e.url.map (readAt args)⟩

theorem isHttp_eq (p : List Char) : isHttp p = httpPrefix.isPrefixOf p := by
  rw [Bool.eq_iff_iff, List.isPrefixOf_iff_prefix, List.prefix_iff_eq_take, isHttp, beq_iff_eq]
  exact eq_comm

/-- Where the tokens of a list were found, its targets read as they are listed. -/
theorem groups_listing {args : List Char} {triples : List Triple} {rest : List (List Char)}
    (hrest : rest.length ≤ 1) {done : List Token}
    (hdone : done.map Token.chars = (triples.flatMap Triple.fields).map Field.chars ++ rest)
    (hread : ∀ x ∈ done, (readAt args x.pos).chars = x.text) :
    ((Grouping.machine.run .none done).2.filter isTarget).map
        (fun group => (entry atof group).shown args) =
      (triples.filter Triple.isTarget).map (Triple.target atof) := by
  induction triples generalizing done with
  | nil =>
      have hlen := congrArg List.length hdone
      rw [List.length_map, List.flatMap_nil, List.map_nil, List.nil_append] at hlen
      match done, hlen with
      | [], _ => rfl
      | [_], _ => rfl
      | _ :: _ :: done, hlen =>
          rw [List.length_cons, List.length_cons] at hlen
          omega
  | cons x triples ih =>
      rw [List.flatMap_cons, List.map_append, List.append_assoc] at hdone
      obtain ⟨min, done, rfl, hmin, hdone⟩ := List.map_eq_cons_iff.mp hdone
      obtain ⟨max, done, rfl, hmax, hdone⟩ := List.map_eq_cons_iff.mp hdone
      obtain ⟨url, done, rfl, hurl, hdone⟩ := List.map_eq_cons_iff.mp hdone
      have hurlRead : readAt args url.pos = x.url.text :=
        CString.ext ((hread url (by simp)).trans (Token.text_of_field hurl))
      have hentry : (entry atof (min, max, url)).shown args = x.target atof := by
        rw [entry, Token.text_of_field hmin, Token.text_of_field hmax, Target.shown,
          Option.map_some, hurlRead]
        rfl
      have htarget : isTarget (min, max, url) = x.isTarget := by
        rw [isTarget, Token.text_of_field hurl, isHttp_eq, Triple.isTarget]
      have hrests := ih hdone fun y hy => hread y (by simp [hy])
      rw [Grouping.run_group]
      by_cases hcase : x.isTarget = true
      · rw [List.filter_cons_of_pos hcase, List.filter_cons_of_pos (htarget.trans hcase),
          List.map_cons, List.map_cons, hentry, hrests]
      · have hother : ¬ isTarget (min, max, url) = true := by rwa [htarget]
        rw [List.filter_cons_of_neg hcase, List.filter_cons_of_neg hother, hrests]

/-! ## Main result -/

/-- `starfrit_setup` makes of a list of triples exactly the targets it lists. -/
theorem starfrit_setup_targets {t : Targets F} (hstart : t.starfritcount = 0) (led : Int)
    (triples : List Triple) {ending : List Char} (hending : Ending ending) {args : CString}
    (hargs : args.chars = listing triples ++ ending) (hlen : args.strlen ≤ 1023) :
    ∃ s, starfritSetup dm atof t led (some args) = .ok s ∧
      s.targets.starfritcount = (triples.filter Triple.isTarget).length ∧
      (s.targets.starfritconf.take s.targets.starfritcount).map (Target.shown s.scan.args) =
        (triples.filter Triple.isTarget).map (Triple.target atof) := by
  obtain ⟨done, s, hrun, hprogress⟩ := starfrit_setup_progress atof dm hstart led hlen
  obtain ⟨rest, htokens, hrest⟩ := tokensOf_listing triples hending
  have hdone := hprogress.tokens_eq
  rw [List.append_nil, hargs, htokens] at hdone
  have hgroups := groups_listing atof hrest hdone fun x hx => hprogress.read atof hx
  refine ⟨s, hrun, ?_, ?_⟩
  · rw [hprogress.filled.count_eq, ← List.length_map (f := Triple.target atof), ← hgroups,
      List.length_map]
  · rw [← Targets.counted, hprogress.filled.counted_eq, List.map_map, ← hgroups]
    rfl

end Setup

/-- A field without white characters around it. -/
def Field.bare (text : List Char) (hne : (CString.ofBuffer text).chars ≠ [])
    (hfree : ∀ c ∈ (CString.ofBuffer text).chars, c ≠ ';' ∧ c ≠ '#' ∧ isBlank c = false)
    (hfirst : ∀ c ∈ (CString.ofBuffer text).chars.head?, isWhite c = false)
    (hlast : ∀ c ∈ (CString.ofBuffer text).chars.getLast?, isWhite c = false ∧ c ≠ '\\') :
    Field where
  text := CString.ofBuffer text
  before := []
  after := []
  text_ne := hne
  free := hfree
  first := hfirst
  last := hlast
  before_white := fun _ hc => absurd hc List.not_mem_nil
  after_white := fun _ hc => absurd hc List.not_mem_nil

/-- The list `0;5;http://x; `. -/
theorem starfrit_setup_targets_one :
    ∃ x : Triple, x.url.text = CString.ofBuffer (httpPrefix ++ ['x']) ∧
      ∃ s, starfritSetup .ilp32 (fun text => (text.length : Int)) Targets.start 4
          (some (CString.ofBuffer (['0', ';', '5', ';'] ++ httpPrefix ++ ['x', ';', ' ']))) =
            .ok s ∧
        s.targets.starfritcount = ([x].filter Triple.isTarget).length ∧
        (s.targets.starfritconf.take s.targets.starfritcount).map (Target.shown s.scan.args) =
          ([x].filter Triple.isTarget).map (Triple.target fun text => (text.length : Int)) := by
  have hending : Ending [';', ' '] := Or.inr ⟨[' '], rfl, List.forall_mem_singleton.mpr rfl⟩
  refine ⟨⟨.bare ['0'] ?_ ?_ ?_ ?_, .bare ['5'] ?_ ?_ ?_ ?_,
    .bare (httpPrefix ++ ['x']) ?_ ?_ ?_ ?_⟩, rfl,
    starfrit_setup_targets .ilp32 _ rfl 4 [_] hending rfl (by decide)⟩
  all_goals simp [CString.ofBuffer, httpPrefix, isBlank, isWhite, regular]

end IrBridge.Scale
