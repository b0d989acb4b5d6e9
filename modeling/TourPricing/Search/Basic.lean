import TourPricing.Expansion
import TourPricing.Search.Label

namespace TourPricing

structure SearchLimits (α : Type) where
  maxPaths : Nat
  labelLimit : Nat
  /-- Only walks that cost less than this are of interest. -/
  threshold : α

def SearchLimits.standard {α : Type} [Scalar α] : SearchLimits α :=
  ⟨10, 64, -Scalar.costTolerance⟩

structure Search (α : Type) where
  expansion : Expansion
  cost : Nat → α
  forbidden : List Nat
  window : TimeWindow
  rule : VisitRule
  limits : SearchLimits α

structure SearchResult (α : Type) where
  /-- Closed walks with their costs, cheapest first. -/
  paths : List (α × Route)
  /-- The least cost of all edges that were looked at; `none` if there was no edge. -/
  leastEdgeCost : Option α
  /-- Whether the label limit never cost a label. -/
  exhaustive : Bool

namespace Search

variable {α : Type}

/-- What a search has come to besides the labels that wait. -/
structure Progress (α : Type) where
  /-- Labels of closed walks, in the order in which they were settled. -/
  closed : List (Label α)
  leastEdgeCost : Option α
  exhaustive : Bool

variable [Scalar α] (S : Search α)

/-- Whether a leg may be taken at all, whatever came before. -/
def allows (leg : Leg) : Bool :=
  !S.forbidden.contains leg.edge && S.window.admits S.expansion.network.source leg.head

/-- Extends a label by a leg and offers the result to the bucket at the end of the leg. Labels of
closed walks are all kept. -/
def extendBy (label : Label α) (state : Frontier (List (Label α)) × Progress α) (leg : Leg) :
    Frontier (List (Label α)) × Progress α :=
  if !S.allows leg then state
  else
    let (F, progress) := state
    let cost := S.cost leg.edge
    let progress := { progress with leastEdgeCost := Scalar.least progress.leastEdgeCost cost }
    let next := leg.head.vertex
    let closes := next == S.expansion.network.source
    if !closes && !S.rule.admits label.trail next then (F, progress)
    else
      let extended := label.extend S.rule.memory leg cost
      let bucket := (F.get? leg.head).getD []
      if closes then (F.set leg.head (bucket ++ [extended]), progress)
      else
        let (bucket, cut) := Bucket.insert S.rule S.limits.labelLimit bucket extended
        (F.set leg.head bucket, { progress with exhaustive := progress.exhaustive && !cut })

/-- Settles a stop: its labels are closed walks, or each of them is extended by each leg. -/
def settle (s : Stop) (bucket : List (Label α)) (F : Frontier (List (Label α)))
    (progress : Progress α) : Frontier (List (Label α)) × Progress α :=
  if S.expansion.network.isTerminal s then
    (F, { progress with closed := progress.closed ++ bucket })
  else
    let legs := S.expansion.outgoing s
    bucket.foldl (fun state label => legs.foldl (S.extendBy label) state) (F, progress)

def explore : Progress α :=
  let N := S.expansion.network
  Frontier.sweep S.settle (N.sweepLimit S.expansion.horizon)
    (.single N.start [Label.start N.dimension N.source]) ⟨[], none, true⟩

/-- The closed walks below the threshold, cheapest first, as many as are wanted. -/
def run : SearchResult α :=
  let progress := S.explore
  let ranked := progress.closed.mergeSort Label.rankLE
  { paths := ((ranked.filter (·.cost < S.limits.threshold)).take S.limits.maxPaths).map
      fun label => (label.cost, label.route)
    leastEdgeCost := progress.leastEdgeCost
    exhaustive := progress.exhaustive }

end Search

end TourPricing
