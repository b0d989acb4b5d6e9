import TourPricing.ColumnGeneration.Basic
import TourPricing.Network.Draft

namespace TourPricing.ColumnGeneration

def figure (x : Option Float) : String :=
  match x with
  | some x => "Some(" ++ Decimal.renderFloat .tagged x ++ ")"
  | none => "None"

def Report.text (r : Report Float) : String :=
  "Column generation\n" ++
  s!"  Rounds: {r.rounds} ({r.farkasRounds} Farkas)\n" ++
  s!"  Columns: {r.columns}\n" ++
  s!"  LP objective: {figure r.objective}\n" ++
  s!"  Lower bound: {figure r.lowerBound}\n" ++
  s!"  Incumbent: {figure r.incumbent}\n" ++
  s!"  Infeasible: {r.infeasible}, converged: {r.converged}\n" ++
  "  Time: 0.0000s\n"

def Report.toJson (r : Report Float) : Json :=
  .object [("rounds", .nat r.rounds), ("farkas_rounds", .nat r.farkasRounds),
    ("columns", .nat r.columns), ("objective", .option .float r.objective),
    ("lower_bound", .option .float r.lowerBound), ("incumbent", .option .float r.incumbent),
    ("infeasible", .bool r.infeasible), ("converged", .bool r.converged),
    ("computation_time", .real (Decimal.ofNat 0) 0)]

/-- Settings that are left out have their standard values. -/
def ofJson? (j : Json) : Option (ColumnGeneration Float) := do
  let r ← j.record? ["max_rounds", "gap_tolerance"]
  let d : ColumnGeneration Float := .standard
  pure
    { maxRounds := ← Json.fieldOr? r "max_rounds" Json.index? d.maxRounds
      gapTolerance := ← Json.fieldOr? r "gap_tolerance" Json.float? d.gapTolerance }

end TourPricing.ColumnGeneration
