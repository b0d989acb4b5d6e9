import TourPricing.Json.Basic
import TourPricing.Tour.Basic

namespace TourPricing.Tour

def costText (t : Tour) : String :=
  match t.cost with
  | some c => s!"{c}.00"
  | none => "inf"

def report (t : Tour) : String :=
  s!"Tour ({t.algorithm})\n" ++
  s!"  Cost: {t.costText}\n" ++
  s!"  Duration: {t.duration}\n" ++
  s!"  Feasible: {t.feasible}\n" ++
  "  Time: 0.0000s\n" ++
  s!"  Vertices: {t.vertices}\n"

def toJson (t : Tour) : Json :=
  .object [("vertices", .array (t.vertices.map Json.nat)),
    ("cost", .option (fun c => .real (Decimal.ofNat c) 0) t.cost), ("duration", .nat t.duration),
    ("feasible", .bool t.feasible), ("algorithm", .text t.algorithm),
    ("computation_time", .real (Decimal.ofNat 0) 0)]

end TourPricing.Tour
