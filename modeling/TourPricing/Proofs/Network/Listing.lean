import Mathlib.Data.List.Nodup
import TourPricing.Proofs.Network.Construction
import TourPricing.Proofs.Network.Reading
import TourPricing.Proofs.Text

namespace TourPricing

namespace Network

/-- A line shows a text if nothing but blanks stand around it. -/
def Shows (line text : List Char) : Prop :=
  ∃ before after, line = before ++ text ++ after ∧
    ∀ c ∈ before ++ after, Text.isBlank c = true ∧ c ≠ '\n'

theorem Shows.trim {line text : List Char} (h : Shows line text) (ht : Text.IsTrimmed text) :
    Text.trim line = text := by
  obtain ⟨before, after, rfl, hblank⟩ := h
  exact Text.trim_eq (fun c hc => (hblank c (List.mem_append_left _ hc)).1)
    (fun c hc => (hblank c (List.mem_append_right _ hc)).1) ht

theorem Shows.no_break {line text : List Char} (h : Shows line text) (ht : '\n' ∉ text) :
    '\n' ∉ line := by
  obtain ⟨before, after, rfl, hblank⟩ := h
  intro hc
  rcases List.mem_append.1 hc with hc | hc
  · rcases List.mem_append.1 hc with hc | hc
    · exact (hblank _ (List.mem_append_left _ hc)).2 rfl
    · exact ht hc
  · exact (hblank _ (List.mem_append_right _ hc)).2 rfl

/-- A header line of the text format. -/
inductive Header where
  | name (s : String)
  | comment (s : String)
  | dimension (n : Nat)
  /-- The source, counted from one. -/
  | source (n : Nat)
  | horizon (t : Nat)
  | lowerBound (t : Nat)
deriving DecidableEq

namespace Header

def key : Header → String
  | .name _ => "NAME"
  | .comment _ => "COMMENT"
  | .dimension _ => "DIMENSION"
  | .source _ => "SOURCE"
  | .horizon _ => "TIME_HORIZON"
  | .lowerBound _ => "TIME_LOWER_BOUND"

def value : Header → List Char
  | .name s | .comment s => s.toList
  | .dimension n | .source n | .horizon n | .lowerBound n => Nat.toDigits 10 n

def line (h : Header) : List Char :=
  h.key.toList ++ ':' :: ' ' :: h.value

/-- Texts stand on one line and are not blank at an end, and numbers have their size. -/
def Fits : Header → Prop
  | .name s | .comment s => '\n' ∉ s.toList ∧ Text.IsTrimmed s.toList
  | .dimension n | .source n => n < indexLimit
  | .horizon t | .lowerBound t => t < timeLimit

def enter (sheet : Sheet) : Header → Sheet
  | .name s => { sheet with name := s }
  | .comment s => { sheet with comment := s }
  | .dimension n => { sheet with dimension := n }
  | .source n => { sheet with source := n }
  | .horizon t => { sheet with horizon := some t }
  | .lowerBound t => { sheet with lowerBound := some t }

variable {h : Header} {sheet : Sheet}

theorem withHeader_eq (hfit : h.Fits) :
    sheet.withHeader h.key.toList h.value = .ok (h.enter sheet) := by
  cases h with
  | name s | comment s => simp [Sheet.withHeader, key, value, enter]
  | dimension n | source n | horizon n | lowerBound n =>
    simp [Sheet.withHeader, key, value, enter, required, Decimal.readNat_toDigits hfit]

theorem isTrimmed_value (hfit : h.Fits) : Text.IsTrimmed h.value := by
  cases h with
  | name s | comment s => exact hfit.2
  | dimension n | source n | horizon n | lowerBound n => exact Decimal.isTrimmed_toDigits n

theorem plain_key (h : Header) : h.key.toList ≠ [] ∧
    ∀ c ∈ h.key.toList, Text.isBlank c = false ∧ c ≠ ':' := by
  have hplain : h.key.toList ≠ [] ∧
      h.key.toList.all (fun c => !Text.isBlank c && c != ':') = true := by
    cases h <;> simp only [key] <;> decide
  simpa using hplain

theorem isTrimmed_key (h : Header) : Text.IsTrimmed h.key.toList :=
  Text.isTrimmed_of_forall fun c hc => (h.plain_key.2 c hc).1

theorem not_mem_key (h : Header) : ':' ∉ h.key.toList :=
  fun hc => (h.plain_key.2 _ hc).2 rfl

theorem cutAt_trim (hfit : h.Fits) {line : List Char} (hshow : Shows line h.line) :
    ∃ rest, Text.cutAt ':' (Text.trim line) = some (h.key.toList, rest) ∧
      Text.trim rest = h.value := by
  obtain ⟨before, after, rfl, hblank⟩ := hshow
  have hb : ∀ c ∈ before, Text.isBlank c = true := fun c hc =>
    (hblank c (List.mem_append_left _ hc)).1
  have ha : ∀ c ∈ after, Text.isBlank c = true := fun c hc =>
    (hblank c (List.mem_append_right _ hc)).1
  have hcolon : Text.IsTrimmed [':'] := by decide
  have hvalue := isTrimmed_value hfit
  rw [line]
  cases hv : h.value with
  | nil =>
    have htrim := h.isTrimmed_key.around hcolon h.plain_key.1 (List.cons_ne_nil _ _) []
    have ha' : ∀ c ∈ ' ' :: after, Text.isBlank c = true := List.forall_mem_cons.2 ⟨rfl, ha⟩
    refine ⟨[], ?_, rfl⟩
    rw [show before ++ (h.key.toList ++ [':', ' ']) ++ after =
        before ++ (h.key.toList ++ ([] ++ [':'])) ++ ' ' :: after by simp,
      Text.trim_eq hb ha' htrim]
    exact Text.cutAt_append h.not_mem_key
  | cons c rest =>
    rw [hv] at hvalue
    have htrim := h.isTrimmed_key.around hvalue h.plain_key.1 (List.cons_ne_nil _ _) [':', ' ']
    have hspace : ∀ d ∈ [' '], Text.isBlank d = true := List.forall_mem_singleton.2 rfl
    have hrest := Text.trim_eq hspace (List.forall_mem_nil _) hvalue
    refine ⟨' ' :: c :: rest, ?_, ?_⟩
    · rw [show ':' :: ' ' :: c :: rest = [':', ' '] ++ c :: rest from rfl, Text.trim_eq hb ha htrim]
      exact Text.cutAt_append h.not_mem_key
    · rwa [List.append_nil] at hrest

theorem no_break_line (hfit : h.Fits) : '\n' ∉ h.line := by
  have hkey : '\n' ∉ h.key.toList := fun hc => absurd (h.plain_key.2 _ hc).1 (by decide)
  have hvalue : '\n' ∉ h.value := by
    cases h with
    | name s | comment s => exact hfit.1
    | dimension n | source n | horizon n | lowerBound n =>
      exact fun hc => absurd (Decimal.isBlank_of_mem_toDigits hc) (by decide)
  simp [line, hkey, hvalue]

theorem withLine_eq (hfit : h.Fits) {line : List Char} (hshow : Shows line h.line) :
    sheet.withLine (Text.trim line) = .ok (h.enter sheet) := by
  obtain ⟨rest, hcut, hrest⟩ := cutAt_trim hfit hshow
  rw [Sheet.withLine_of_cutAt hcut, Text.trim_of_isTrimmed h.isTrimmed_key, hrest,
    withHeader_eq hfit]

theorem enter_comm {g : Header} (hkey : g.key = h.key → g = h) :
    h.enter (g.enter sheet) = g.enter (h.enter sheet) := by
  by_cases heq : g.key = h.key
  · rw [hkey heq]
  · cases g <;> cases h
    case name.name | comment.comment | dimension.dimension | source.source | horizon.horizon |
      lowerBound.lowerBound => exact absurd rfl heq
    all_goals rfl

end Header

end Network

def Arc.line (a : Arc) : List Char :=
  Nat.toDigits 10 (a.source + 1) ++ ' ' :: (Nat.toDigits 10 (a.target + 1) ++
    ' ' :: Nat.toDigits 10 a.travelTime)

theorem Arc.mem_line {a : Arc} {c : Char} (hc : c ∈ a.line) : c.isDigit = true ∨ c = ' ' := by
  simp only [Arc.line, List.mem_append, List.mem_cons] at hc
  rcases hc with hc | hc | hc | hc | hc
  · exact .inl (Decimal.isDigit_of_mem_toDigits hc)
  · exact .inr hc
  · exact .inl (Decimal.isDigit_of_mem_toDigits hc)
  · exact .inr hc
  · exact .inl (Decimal.isDigit_of_mem_toDigits hc)

theorem Arc.isTrimmed_line (a : Arc) : Text.IsTrimmed a.line := by
  have hrest := (Decimal.isTrimmed_toDigits (a.target + 1)).around
    (Decimal.isTrimmed_toDigits a.travelTime) Nat.toDigits_ne_nil Nat.toDigits_ne_nil [' ']
  exact (Decimal.isTrimmed_toDigits (a.source + 1)).around hrest Nat.toDigits_ne_nil
    (List.append_ne_nil_of_left_ne_nil Nat.toDigits_ne_nil _) [' ']

theorem Arc.words_line (a : Arc) : Text.words a.line =
    [Nat.toDigits 10 (a.source + 1), Nat.toDigits 10 (a.target + 1),
      Nat.toDigits 10 a.travelTime] := by
  have hword (n : Nat) : ∀ c ∈ Nat.toDigits 10 n, Text.isBlank c = false := fun _ hc =>
    Decimal.isBlank_of_mem_toDigits hc
  rw [Arc.line, Text.words_append (hword _) Nat.toDigits_ne_nil,
    Text.words_append (hword _) Nat.toDigits_ne_nil,
    Text.words_eq_singleton (hword _) Nat.toDigits_ne_nil]

namespace Network

namespace Sheet

variable {sheet : Sheet} {line : List Char}

theorem withLine_idle (h : Shows line [] ∨ Shows line "EOF".toList) :
    sheet.withLine (Text.trim line) = .ok sheet := by
  rcases h with h | h
  · rw [h.trim Text.isTrimmed_nil]
    exact if_pos (.inl rfl)
  · rw [h.trim (by decide)]
    exact if_pos (.inr rfl)

theorem withLine_edgeSection (h : Shows line "EDGE_SECTION".toList) :
    sheet.withLine (Text.trim line) = .ok { sheet with current := .edges } := by
  rw [h.trim (by decide)]
  rfl

theorem withLine_arc {a : Arc} (hsection : sheet.current = .edges)
    (hs : a.source + 1 < indexLimit) (ht : a.target + 1 < indexLimit)
    (htime : a.travelTime < timeLimit) (h : Shows line a.line) :
    sheet.withLine (Text.trim line) = .ok { sheet with arcs := sheet.arcs ++ [a] } := by
  have hno (c : Char) (hdigit : c.isDigit = false) (hspace : c ≠ ' ') : c ∉ a.line := fun hc =>
    (Arc.mem_line hc).elim (fun hd => absurd hd (Bool.eq_false_iff.1 hdigit)) hspace
  have hidle : ¬ (a.line = [] ∨ a.line = "EOF".toList) := by
    rintro (hnil | heof)
    · exact List.append_ne_nil_of_left_ne_nil Nat.toDigits_ne_nil _ hnil
    · exact hno 'E' rfl (by decide) (heof ▸ by decide)
  have htitle (title : List Char) (hE : 'E' ∈ title) : title.isPrefixOf a.line = false := by
    rw [Bool.eq_false_iff, ne_eq, List.isPrefixOf_iff_prefix]
    intro hstart
    exact hno 'E' rfl (by decide) (hstart.subset hE)
  rw [h.trim a.isTrimmed_line, withLine, if_neg hidle,
    Text.cutAt_eq_none (hno ':' rfl (by decide))]
  simp only [htitle _ (show 'E' ∈ "NODE_COORD_SECTION".toList by decide),
    htitle _ (show 'E' ∈ "EDGE_SECTION".toList by decide), Bool.false_eq_true, if_false, hsection,
    a.words_line, withArc, Decimal.readNat_toDigits hs, Decimal.readNat_toDigits ht,
    Decimal.readNat_toDigits htime, required]
  rfl

end Sheet

/-- Lines that show some contents in order, one on each line, and between them nothing but blank
lines and lines that say `EOF`. -/
inductive Lays : (contents lines : List (List Char)) → Prop
  | done : Lays [] []
  | idle {contents lines : List (List Char)} {line : List Char} :
    Shows line [] ∨ Shows line "EOF".toList → Lays contents lines → Lays contents (line :: lines)
  | text {contents lines : List (List Char)} {line content : List Char} :
    Shows line content → Lays contents lines → Lays (content :: contents) (line :: lines)

namespace Lays

variable {contents more lines : List (List Char)}

theorem no_break (h : Lays contents lines) (hc : ∀ content ∈ contents, '\n' ∉ content) :
    ∀ line ∈ lines, '\n' ∉ line := by
  induction h with
  | done => exact List.forall_mem_nil _
  | idle hidle _ ih =>
    refine List.forall_mem_cons.2 ⟨?_, ih hc⟩
    rcases hidle with hidle | hidle
    · exact hidle.no_break (by decide)
    · exact hidle.no_break (by decide)
  | text hshow _ ih =>
    obtain ⟨hfirst, hrest⟩ := List.forall_mem_cons.1 hc
    exact List.forall_mem_cons.2 ⟨hshow.no_break hfirst, ih hrest⟩

theorem eq_nil (h : Lays contents []) : contents = [] := by
  cases h
  rfl

theorem split (h : Lays (contents ++ more) lines) :
    ∃ before after, lines = before ++ after ∧ Lays contents before ∧ Lays more after := by
  generalize hall : contents ++ more = all at h
  induction h generalizing contents with
  | done =>
    obtain ⟨rfl, rfl⟩ := List.append_eq_nil_iff.1 hall
    exact ⟨[], [], rfl, .done, .done⟩
  | @idle _ lines line hidle _ ih =>
    obtain ⟨before, after, rfl, hb, ha⟩ := ih hall
    exact ⟨line :: before, after, rfl, hb.idle hidle, ha⟩
  | @text all lines line content hshow hrest ih =>
    cases contents with
    | nil =>
      rw [List.nil_append] at hall
      exact ⟨[], line :: lines, rfl, .done, hall ▸ hrest.text hshow⟩
    | cons first contents =>
      obtain ⟨rfl, htail⟩ := List.cons.inj hall
      obtain ⟨before, after, rfl, hb, ha⟩ := ih htail
      exact ⟨line :: before, after, rfl, hb.text hshow, ha⟩

/-- Items that are entered line by line are entered one after another, whatever stands between
their lines. -/
theorem foldlM_eq {β : Type} {text : β → List Char} {enter : Sheet → β → Sheet} {items : List β}
    {sheet : Sheet} (h : Lays (items.map text) lines) (I : Sheet → Prop) (hI : I sheet)
    (step : ∀ item ∈ items, ∀ sheet line, I sheet → Shows line (text item) →
      sheet.withLine (Text.trim line) = .ok (enter sheet item) ∧ I (enter sheet item)) :
    sheet.readLines lines = .ok (items.foldl enter sheet) := by
  generalize hall : items.map text = contents at h
  induction h generalizing items sheet with
  | done =>
    obtain rfl := List.map_eq_nil_iff.1 hall
    rfl
  | idle hidle _ ih =>
    rw [Sheet.readLines_cons, Sheet.withLine_idle hidle]
    exact ih hI step hall
  | text hshow _ ih =>
    cases items with
    | nil => cases hall
    | cons item items =>
      obtain ⟨rfl, htail⟩ := List.cons.inj hall
      obtain ⟨hstep, hI'⟩ := step item List.mem_cons_self sheet _ hI hshow
      rw [Sheet.readLines_cons, hstep]
      exact ih hI' (fun item hitem => step item (List.mem_cons_of_mem _ hitem)) htail

end Lays

/-- A network of arcs as it is written down. -/
structure Listing where
  name : String
  comment : String
  dimension : Nat
  source : Nat
  arcs : List Arc
  horizon : Option Nat
  lowerBound : Option Nat

namespace Listing

variable (L : Listing)

def headers : List Header :=
  [.name L.name, .comment L.comment, .dimension L.dimension, .source (L.source + 1)] ++
    (L.horizon.map Header.horizon).toList ++ (L.lowerBound.map Header.lowerBound).toList

/-- A listing describes a network, and its texts and numbers can be written on one line. -/
structure Fits : Prop where
  name : '\n' ∉ L.name.toList ∧ Text.IsTrimmed L.name.toList
  comment : '\n' ∉ L.comment.toList ∧ Text.IsTrimmed L.comment.toList
  source_lt : L.source < L.dimension
  dimension_lt : L.dimension < indexLimit
  arc_ok : ∀ a ∈ L.arcs, a.source < L.dimension ∧ a.target < L.dimension ∧
    a.source ≠ a.target ∧ 0 < a.travelTime ∧ a.travelTime < timeLimit
  horizon_lt : ∀ t ∈ L.horizon, t < timeLimit
  lowerBound_lt : ∀ t ∈ L.lowerBound, t < timeLimit

/-- Lines that write a listing down: the header lines in any order, the title of the section, and
the arcs in order. -/
def WrittenAs (lines : List (List Char)) : Prop :=
  ∃ headers : List Header, headers.Perm L.headers ∧
    Lays (headers.map Header.line ++ ["EDGE_SECTION".toList] ++ L.arcs.map Arc.line) lines

variable {L}

theorem fits_headers (h : L.Fits) : ∀ g ∈ L.headers, g.Fits := by
  intro g hg
  simp only [headers, List.mem_append, List.mem_cons, Option.mem_toList, Option.map_eq_some_iff,
    List.not_mem_nil, or_false] at hg
  rcases hg with ((rfl | rfl | rfl | rfl) | ⟨t, ht, rfl⟩) | ⟨t, ht, rfl⟩
  · exact h.name
  · exact h.comment
  · exact h.dimension_lt
  · exact Nat.lt_of_le_of_lt h.source_lt h.dimension_lt
  · exact h.horizon_lt t ht
  · exact h.lowerBound_lt t ht

theorem eq_of_key_eq {g h : Header} (hg : g ∈ L.headers) (hh : h ∈ L.headers)
    (hkey : g.key = h.key) : g = h := by
  have hnodup : (L.headers.map Header.key).Nodup := by
    obtain ⟨_, _, _, _, _, horizon, lowerBound⟩ := L
    cases horizon <;> cases lowerBound <;> simp [headers, Header.key]
  exact List.inj_on_of_nodup_map hnodup hg hh hkey

/-- In whatever order the header lines stand, they enter the same sheet. -/
theorem foldl_enter {headers : List Header} (h : headers.Perm L.headers) :
    headers.foldl Header.enter {} =
      { name := L.name, comment := L.comment, dimension := L.dimension, source := L.source + 1
        horizon := L.horizon, lowerBound := L.lowerBound } := by
  have hcomm : ∀ g ∈ L.headers, ∀ k ∈ L.headers, ∀ sheet : Sheet,
      k.enter (g.enter sheet) = g.enter (k.enter sheet) :=
    fun g hg k hk _ => Header.enter_comm (eq_of_key_eq hg hk)
  rw [← h.symm.foldl_eq' hcomm]
  obtain ⟨_, _, _, _, _, horizon, lowerBound⟩ := L
  cases horizon <;> cases lowerBound <;> rfl

theorem foldl_arcs (arcs : List Arc) (sheet : Sheet) :
    arcs.foldl (fun sheet a => { sheet with arcs := sheet.arcs ++ [a] }) sheet =
      { sheet with arcs := sheet.arcs ++ arcs } := by
  induction arcs generalizing sheet with
  | nil => rw [List.append_nil]; rfl
  | cons a rest ih => rw [List.foldl_cons, ih, List.append_assoc, List.singleton_append]

def sheet (L : Listing) : Sheet :=
  { name := L.name, comment := L.comment, dimension := L.dimension, source := L.source + 1
    horizon := L.horizon, lowerBound := L.lowerBound, arcs := L.arcs, current := .edges }

theorem readLines_eq (h : L.Fits) {lines : List (List Char)} (hw : L.WrittenAs lines) :
    Sheet.readLines {} lines = .ok L.sheet := by
  obtain ⟨headers, hperm, hlays⟩ := hw
  obtain ⟨upper, bottom, rfl, hupper, hbottom⟩ := hlays.split
  obtain ⟨top, middle, rfl, htop, hmiddle⟩ := hupper.split
  have hheaders : Sheet.readLines {} top = .ok (headers.foldl Header.enter {}) :=
    htop.foldlM_eq (fun _ => True) trivial fun g hg sheet line _ hshow =>
      ⟨Header.withLine_eq (fits_headers h g (hperm.subset hg)) hshow, trivial⟩
  have hmiddle' : Lays ([()].map fun _ => "EDGE_SECTION".toList) middle := hmiddle
  have htitle (sheet : Sheet) : sheet.readLines middle = .ok { sheet with current := .edges } :=
    hmiddle'.foldlM_eq (fun _ => True) trivial fun _ _ sheet line _ hshow =>
      ⟨Sheet.withLine_edgeSection hshow, trivial⟩
  have harcs (sheet : Sheet) (hcurrent : sheet.current = .edges) :
      sheet.readLines bottom = .ok { sheet with arcs := sheet.arcs ++ L.arcs } := by
    rw [← foldl_arcs]
    refine hbottom.foldlM_eq (·.current = .edges) hcurrent fun a ha sheet line hcurrent hshow => ?_
    obtain ⟨hs, ht, _, _, htime⟩ := h.arc_ok a ha
    have hlt {v : Nat} (hv : v < L.dimension) : v + 1 < indexLimit :=
      Nat.lt_of_le_of_lt hv h.dimension_lt
    exact ⟨Sheet.withLine_arc hcurrent (hlt hs) (hlt ht) htime hshow, hcurrent⟩
  rw [Sheet.readLines_append, Sheet.readLines_append, hheaders, foldl_enter hperm]
  simp only [Except.bind, htitle]
  exact harcs _ rfl

/-- Whether the default horizon fits if a listing states no other one. -/
def DefaultFits (L : Listing) : Prop :=
  L.horizon = none → (withArcs L.name L.dimension L.source L.arcs).defaultHorizon < timeLimit

theorem ofArcs_eq (h : L.Fits) (hdefault : L.DefaultFits) :
    ofArcs L.name L.dimension L.source L.arcs L.horizon =
      .ok (onArcs L.name L.dimension L.source L.arcs L.horizon) := by
  refine ofArcs_eq_ok_iff.2 ⟨h.source_lt, fun a ha => ?_, hdefault, rfl⟩
  obtain ⟨hs, ht, hne, htime, _⟩ := h.arc_ok a ha
  exact Arc.fault?_eq_none.2 ⟨hs, ht, hne, htime⟩

theorem no_break_of_mem (h : L.Fits) {lines : List (List Char)} (hw : L.WrittenAs lines) :
    ∀ line ∈ lines, '\n' ∉ line := by
  obtain ⟨headers, hperm, hlays⟩ := hw
  refine hlays.no_break fun content hc => ?_
  rcases List.mem_append.1 hc with hc | hc
  · rcases List.mem_append.1 hc with hc | hc
    · obtain ⟨g, hg, rfl⟩ := List.mem_map.1 hc
      exact Header.no_break_line (fits_headers h g (hperm.subset hg))
    · rw [List.mem_singleton.1 hc]
      decide
  · obtain ⟨a, _, rfl⟩ := List.mem_map.1 hc
    intro hbreak
    rcases Arc.mem_line hbreak with hd | hs
    · exact absurd hd (by decide)
    · exact absurd hs (by decide)

end Listing

/-- Whoever reads a text that writes a listing down gets what the arcs of the listing make, with its
comment and its limit for the return: the header lines may stand in any order, and blank lines and
lines `EOF` anywhere. The arcs make a network, unless they leave the horizon to a default that does
not fit. -/
theorem parse_of_writtenAs {L : Listing} (h : L.Fits) {lines : List (List Char)}
    (hw : L.WrittenAs lines) :
    parse (String.ofList (['\n'].intercalate lines)) =
      (ofArcs L.name L.dimension L.source L.arcs L.horizon).map
        (fun N => { N with comment := L.comment, lowerBound := L.lowerBound }) ∧
    (L.DefaultFits → ∃ N, ofArcs L.name L.dimension L.source L.arcs L.horizon = .ok N) := by
  have hlines : Text.lines (['\n'].intercalate lines) = lines := by
    refine List.splitOn_intercalate '\n' (Listing.no_break_of_mem h hw) ?_
    rintro rfl
    obtain ⟨headers, _, hlays⟩ := hw
    have hnil := hlays.eq_nil
    simp at hnil
  refine ⟨?_, fun hdefault => ⟨_, Listing.ofArcs_eq h hdefault⟩⟩
  rw [parse, Sheet.read_eq, String.toList_ofList, hlines, Listing.readLines_eq h hw]
  change L.sheet.toNetwork = _
  rw [Sheet.toNetwork]
  simp only [Listing.sheet, Nat.add_sub_cancel, List.isEmpty_nil, if_true]
  cases ofArcs L.name L.dimension L.source L.arcs L.horizon <;> rfl

def Listing.tiny : Listing :=
  { name := "tiny: SOURCE: 9", comment := "EDGE_SECTION", dimension := 3, source := 0
    arcs := [⟨0, 1, 3⟩, ⟨2, 0, 5⟩], horizon := some 20, lowerBound := none }

theorem Listing.fits_tiny : Listing.tiny.Fits where
  name := ⟨by decide, by decide⟩
  comment := ⟨by decide, by decide⟩
  source_lt := by decide
  dimension_lt := by decide
  arc_ok := by decide
  horizon_lt := by simp [tiny, timeLimit, UInt32.size]
  lowerBound_lt := by simp [tiny]

def Listing.tinyLines : List (List Char) :=
  ["TIME_HORIZON: 20\r".toList, [], "SOURCE: 1".toList, "NAME: tiny: SOURCE: 9".toList,
    "EOF".toList, "DIMENSION: 3".toList, "COMMENT: EDGE_SECTION".toList, "EDGE_SECTION".toList,
    "1 2 3".toList, " EOF".toList, "3 1 5".toList, []]

theorem Listing.tiny_writtenAs : Listing.tiny.WrittenAs Listing.tinyLines := by
  have hshow (text : List Char) : Shows text text := ⟨[], [], by simp, List.forall_mem_nil _⟩
  have hblank {c : Char} (hc : Text.isBlank c = true) (hne : c ≠ '\n') :
      ∀ d ∈ [c], Text.isBlank d = true ∧ d ≠ '\n' := List.forall_mem_singleton.2 ⟨hc, hne⟩
  refine ⟨[.horizon 20, .source 1, .name "tiny: SOURCE: 9", .dimension 3,
    .comment "EDGE_SECTION"], by decide, ?_⟩
  have hreturn : Shows "TIME_HORIZON: 20\r".toList "TIME_HORIZON: 20".toList :=
    ⟨[], ['\r'], rfl, hblank rfl (by decide)⟩
  have hindented : Shows " EOF".toList "EOF".toList := ⟨[' '], [], rfl, hblank rfl (by decide)⟩
  exact .text hreturn <| .idle (.inl (hshow _)) <| .text (hshow _) <| .text (hshow _) <|
    .idle (.inr (hshow _)) <| .text (hshow _) <| .text (hshow _) <| .text (hshow _) <|
    .text (hshow _) <| .idle (.inr hindented) <| .text (hshow _) <| .idle (.inl (hshow _)) .done

theorem parse_of_writtenAs_tiny :
    ∃ N, parse ("TIME_HORIZON: 20\r\n\nSOURCE: 1\nNAME: tiny: SOURCE: 9\nEOF\nDIMENSION: 3\n" ++
      "COMMENT: EDGE_SECTION\nEDGE_SECTION\n1 2 3\n EOF\n3 1 5\n") = .ok N ∧
      N.name = "tiny: SOURCE: 9" ∧ N.comment = "EDGE_SECTION" ∧ N.horizon = 20 ∧
      N.edgeCount = 2 := by
  have htext : String.ofList (['\n'].intercalate Listing.tinyLines) =
      "TIME_HORIZON: 20\r\n\nSOURCE: 1\nNAME: tiny: SOURCE: 9\nEOF\nDIMENSION: 3\n" ++
      "COMMENT: EDGE_SECTION\nEDGE_SECTION\n1 2 3\n EOF\n3 1 5\n" := by
    decide +kernel
  obtain ⟨hparse, hexists⟩ := parse_of_writtenAs Listing.fits_tiny Listing.tiny_writtenAs
  obtain ⟨N, hN⟩ := hexists nofun
  obtain ⟨_, _, _, rfl⟩ := ofArcs_eq_ok_iff.1 hN
  rw [htext, hN] at hparse
  exact ⟨_, hparse, rfl, rfl, rfl, rfl⟩

end Network

end TourPricing
