import TourPricing.Decimal.Reader
import TourPricing.Network.Build
import TourPricing.Text.Blank

namespace TourPricing.Network

inductive Section where
  | header
  | coordinates
  | edges
deriving DecidableEq

structure Sheet where
  name : String := ""
  comment : String := ""
  dimension : Nat := 0
  source : Nat := 1
  horizon : Option Nat := none
  lowerBound : Option Nat := none
  coordinates : List (Nat × Float × Float) := []
  arcs : List Arc := []
  current : Section := .header

def required {α : Type} (item : String) (value : Option α) : Except NetworkError α :=
  match value with
  | some a => .ok a
  | none => .error (.invalid item)

namespace Sheet

def withHeader (sheet : Sheet) (key value : List Char) : Except NetworkError Sheet :=
  match String.ofList key with
  | "NAME" => .ok { sheet with name := String.ofList value }
  | "COMMENT" => .ok { sheet with comment := String.ofList value }
  | "DIMENSION" => do
    let n ← required "dimension" (Decimal.readNat indexLimit value)
    pure { sheet with dimension := n }
  | "SOURCE" => do
    let n ← required "source" (Decimal.readNat indexLimit value)
    pure { sheet with source := n }
  | "TIME_HORIZON" => do
    let t ← required "time horizon" (Decimal.readNat timeLimit value)
    pure { sheet with horizon := some t }
  | "TIME_LOWER_BOUND" => do
    let t ← required "time lower bound" (Decimal.readNat timeLimit value)
    pure { sheet with lowerBound := some t }
  | "TYPE" | "EDGE_WEIGHT_TYPE" => .ok sheet
  | other => .error (.unknownKey other)

def withPoint (sheet : Sheet) (id x y : List Char) : Except NetworkError Sheet := do
  let id ← required "vertex id" (Decimal.readNat indexLimit id)
  let x ← required "x coordinate" (Decimal.readFloat x)
  let y ← required "y coordinate" (Decimal.readFloat y)
  pure { sheet with coordinates := sheet.coordinates ++ [(id, x, y)] }

def withArc (sheet : Sheet) (source target time : List Char) : Except NetworkError Sheet := do
  let u ← required "edge source" (Decimal.readNat indexLimit source)
  let v ← required "edge target" (Decimal.readNat indexLimit target)
  let t ← required "travel time" (Decimal.readNat timeLimit time)
  if u = 0 ∨ v = 0 then throw .zeroId
  pure { sheet with arcs := sheet.arcs ++ [⟨u - 1, v - 1, t⟩] }

def withLine (sheet : Sheet) (line : List Char) : Except NetworkError Sheet :=
  if line = [] ∨ line = "EOF".toList then .ok sheet
  else
    match Text.cutAt ':' line with
    | some (key, value) => sheet.withHeader (Text.trim key) (Text.trim value)
    | none =>
      if "NODE_COORD_SECTION".toList.isPrefixOf line then
        .ok { sheet with current := .coordinates }
      else if "EDGE_SECTION".toList.isPrefixOf line then
        .ok { sheet with current := .edges }
      else
        match sheet.current, Text.words line with
        | .coordinates, a :: b :: c :: _ => sheet.withPoint a b c
        | .edges, a :: b :: c :: _ => sheet.withArc a b c
        | .header, _ => .error (.outsideSection (String.ofList line))
        | _, _ => .error (.malformed (String.ofList line))

def read (text : String) : Except NetworkError Sheet :=
  (Text.lines text.toList).foldlM (fun sheet line => sheet.withLine (Text.trim line)) {}

/-- The network that a sheet describes. Points are taken in the order of their numbers; without
points the arcs count. -/
def toNetwork (sheet : Sheet) : Except NetworkError Network := do
  if sheet.source = 0 then throw .zeroId
  let N ←
    if sheet.coordinates.isEmpty then
      ofArcs sheet.name sheet.dimension (sheet.source - 1) sheet.arcs sheet.horizon
    else do
      if sheet.dimension ≠ 0 ∧ sheet.coordinates.length ≠ sheet.dimension then
        throw (.coordinateCount sheet.dimension sheet.coordinates.length)
      let points := sheet.coordinates.mergeSort fun p q => p.1 ≤ q.1
      ofCoordinates sheet.name (points.map (·.2)) (sheet.source - 1) sheet.horizon
  pure { N with comment := sheet.comment, lowerBound := sheet.lowerBound }

end Sheet

def parse (text : String) : Except NetworkError Network := do
  (← Sheet.read text).toNetwork

end TourPricing.Network
