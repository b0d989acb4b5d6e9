import TourPricing.Decimal.Layout
import TourPricing.Network.Basic

namespace TourPricing

structure Statistics where
  name : String
  dimension : Nat
  edgeCount : Nat
  /-- The share of ordered pairs of vertices that the number of edges comes to. -/
  density : Float
  horizon : Nat
  lowerBound : Option Nat
  minTravelTime : Nat
  maxTravelTime : Nat
  meanTravelTime : Float

def Draft.statistics (d : Draft) : Statistics :=
  let times := d.edges.toList.map (·.travelTime)
  let pairs := d.dimension * (d.dimension - 1)
  { name := d.name
    dimension := d.dimension
    edgeCount := d.edges.size
    density := if pairs = 0 then 0 else Float.ofNat d.edges.size / Float.ofNat pairs
    horizon := d.horizon
    lowerBound := d.lowerBound
    minTravelTime := times.min?.getD 0
    maxTravelTime := times.max?.getD 0
    meanTravelTime :=
      if times.isEmpty then 0
      else (times.map Float.ofNat).foldl (· + ·) 0 / Float.ofNat times.length }

def Statistics.report (s : Statistics) : String :=
  s!"Instance: {s.name}\n" ++
  s!"  Vertices: {s.dimension} (1 source + {s.dimension - 1} others)\n" ++
  s!"  Edges: {s.edgeCount} (density {Decimal.fixedFloat 2 s.density})\n" ++
  s!"  Time horizon: {s.horizon}\n" ++
  (match s.lowerBound with
    | some t => s!"  Earliest return: {t}\n"
    | none => "") ++
  s!"  Travel time: min {s.minTravelTime} / avg {Decimal.fixedFloat 2 s.meanTravelTime}" ++
  s!" / max {s.maxTravelTime}\n"

end TourPricing
