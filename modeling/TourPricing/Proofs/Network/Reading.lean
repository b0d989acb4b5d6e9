import Mathlib.Data.List.Forall2
import TourPricing.Network.Reader
import TourPricing.Proofs.Lists

namespace TourPricing.Network

/-- What a line is, whatever section it stands in. -/
inductive Line where
  | idle
  | header (key value : List Char)
  | title (opened : Section)
  | data (words : List (List Char))

/-- What a line without blanks around it is. The first colon makes a header line of it. -/
def Line.of (line : List Char) : Line :=
  if line = [] ∨ line = "EOF".toList then .idle
  else
    match Text.cutAt ':' line with
    | some (key, value) => .header (Text.trim key) (Text.trim value)
    | none =>
      if "NODE_COORD_SECTION".toList <+: line then .title .coordinates
      else if "EDGE_SECTION".toList <+: line then .title .edges
      else .data (Text.words line)

/-- A line of data in a section of coordinates. Only its first three words count. -/
def PointWords (words : List (List Char)) (p : Nat × Float × Float) : Prop :=
  ∃ id x y more, words = id :: x :: y :: more ∧ Decimal.readNat indexLimit id = some p.1 ∧
    Decimal.readFloat x = some p.2.1 ∧ Decimal.readFloat y = some p.2.2

def pointLines (current : Section) : List (List Char) → List (List (List Char))
  | [] => []
  | line :: lines =>
    match Line.of (Text.trim line) with
    | .title opened => pointLines opened lines
    | .data words =>
      if current = .coordinates then words :: pointLines current lines
      else pointLines current lines
    | .idle | .header _ _ => pointLines current lines

def lastValue (key : String) : List (List Char) → Option (List Char)
  | [] => none
  | line :: lines =>
    (lastValue key lines).or <|
      match Line.of (Text.trim line) with
      | .header k value => if String.ofList k = key then some value else none
      | _ => none

theorem required_eq_ok {α : Type} {item : String} {value : Option α} {a : α} :
    required item value = .ok a ↔ value = some a := by
  cases value with
  | none => exact ⟨fun h => (by cases h), fun h => (by cases h)⟩
  | some b => simp [required]

namespace Sheet

variable {sheet next : Sheet} {line key value : List Char}

def readLines (sheet : Sheet) (lines : List (List Char)) : Except NetworkError Sheet :=
  lines.foldlM (fun sheet line => sheet.withLine (Text.trim line)) sheet

theorem read_eq (text : String) : read text = readLines {} (Text.lines text.toList) := rfl

theorem readLines_cons (sheet : Sheet) (line : List Char) (lines : List (List Char)) :
    sheet.readLines (line :: lines) =
      (sheet.withLine (Text.trim line)).bind fun next => next.readLines lines := rfl

theorem readLines_append (sheet : Sheet) (before after : List (List Char)) :
    sheet.readLines (before ++ after) =
      (sheet.readLines before).bind fun next => next.readLines after :=
  List.foldlM_append

theorem withLine_of_cutAt (h : Text.cutAt ':' line = some (key, value)) :
    sheet.withLine line = sheet.withHeader (Text.trim key) (Text.trim value) := by
  have hidle : ¬ (line = [] ∨ line = "EOF".toList) := by
    rintro (rfl | rfl)
    · cases h
    · cases h
  rw [withLine, if_neg hidle, h]

/-- What a line can do to a sheet. -/
inductive Enters (sheet : Sheet) : Line → Sheet → Prop
  | idle : Enters sheet .idle sheet
  | header {key value : List Char} {next : Sheet} : sheet.withHeader key value = .ok next →
    Enters sheet (.header key value) next
  | title (opened : Section) : Enters sheet (.title opened) { sheet with current := opened }
  | point {words : List (List Char)} {p : Nat × Float × Float} : sheet.current = .coordinates →
    PointWords words p →
    Enters sheet (.data words) { sheet with coordinates := sheet.coordinates ++ [p] }
  | arc {words : List (List Char)} (a : Arc) : sheet.current = .edges →
    Enters sheet (.data words) { sheet with arcs := sheet.arcs ++ [a] }

theorem withPoint_eq_ok {id x y : List Char} (h : sheet.withPoint id x y = .ok next) :
    ∃ p : Nat × Float × Float, Decimal.readNat indexLimit id = some p.1 ∧
      Decimal.readFloat x = some p.2.1 ∧ Decimal.readFloat y = some p.2.2 ∧
      next = { sheet with coordinates := sheet.coordinates ++ [p] } := by
  obtain ⟨id', hid, h⟩ := exists_of_bind_ok h
  obtain ⟨x', hx, h⟩ := exists_of_bind_ok h
  obtain ⟨y', hy, h⟩ := exists_of_bind_ok h
  exact ⟨(id', x', y'), required_eq_ok.1 hid, required_eq_ok.1 hx, required_eq_ok.1 hy,
    (Except.ok.inj h).symm⟩

theorem withArc_eq_ok {source target time : List Char}
    (h : sheet.withArc source target time = .ok next) :
    ∃ a : Arc, next = { sheet with arcs := sheet.arcs ++ [a] } := by
  obtain ⟨u, -, h⟩ := exists_of_bind_ok h
  obtain ⟨v, -, h⟩ := exists_of_bind_ok h
  obtain ⟨t, -, h⟩ := exists_of_bind_ok h
  split at h
  · cases h
  · exact ⟨_, (Except.ok.inj h).symm⟩

theorem withLine_eq (sheet : Sheet) (line : List Char) : sheet.withLine line =
    match Line.of line with
    | .idle => .ok sheet
    | .header key value => sheet.withHeader key value
    | .title opened => .ok { sheet with current := opened }
    | .data words =>
      match sheet.current, words with
      | .coordinates, id :: x :: y :: _ => sheet.withPoint id x y
      | .edges, source :: target :: time :: _ => sheet.withArc source target time
      | .header, _ => .error (.outsideSection (String.ofList line))
      | _, _ => .error (.malformed (String.ofList line)) := by
  simp only [withLine, Line.of, List.isPrefixOf_iff_prefix]
  split
  · rfl
  · cases Text.cutAt ':' line with
    | some cut => rfl
    | none =>
      dsimp only
      split
      · rfl
      · split
        · rfl
        · rfl

theorem enters_of_withLine (h : sheet.withLine line = .ok next) :
    sheet.Enters (Line.of line) next := by
  rw [withLine_eq] at h
  cases hline : Line.of line with
  | idle =>
    rw [hline] at h
    cases h
    exact .idle
  | header key value =>
    rw [hline] at h
    exact .header h
  | title opened =>
    rw [hline] at h
    cases h
    exact .title opened
  | data words =>
    simp only [hline] at h
    split at h
    · rename_i id x y more hcurrent
      obtain ⟨p, hid, hx, hy, rfl⟩ := withPoint_eq_ok h
      exact .point hcurrent ⟨id, x, y, more, rfl, hid, hx, hy⟩
    · rename_i hcurrent
      obtain ⟨a, rfl⟩ := withArc_eq_ok h
      exact .arc a hcurrent
    · cases h
    · cases h

end Sheet

end TourPricing.Network
