import TourPricing.Expansion
import TourPricing.Pricing.Bound
import TourPricing.Pricing.Round

namespace TourPricing

structure EdgePricing where
  /-- How many departures of an edge are taken. -/
  perEdge : Nat := 20
  /-- Whether the upper limit of the window is dropped. -/
  relaxed : Bool := false
deriving DecidableEq

namespace EdgePricing

variable {α : Type} [Scalar α]

def name : String := "EdgePricer"

def effective (P : EdgePricing) (window : TimeWindow) : TimeWindow :=
  if P.relaxed then { window with upper := none } else window

def admitted (P : EdgePricing) (E : Expansion) (window : TimeWindow) (e : Edge) : List Leg :=
  (E.departuresOf e).filter fun leg => (P.effective window).admits E.network.source leg.head

/-- The departures that are taken, edge by edge, and the least cost of the edges that have a
departure within the window. -/
def find (P : EdgePricing) (E : Expansion) (cost : Nat → α) (forbidden : List Nat)
    (window : TimeWindow) : List Leg × Option α :=
  let priced := E.network.edges.toList.filter fun e =>
    !forbidden.contains e.id && !(P.admitted E window e).isEmpty
  let negative := priced.filter fun e => cost e.id < -(Scalar.costTolerance : α)
  (negative.flatMap fun e => (P.admitted E window e).take P.perEdge,
    (priced.map fun e => cost e.id).foldl Scalar.least none)

/-- The legs of negative cost that a round finds, and the bound of a round on reduced costs. -/
def price (P : EdgePricing) (E : Expansion) (round : Round α) : PricingResult α :=
  let cost := round.kind.cost E.network round.duals
  let (legs, least) := P.find E cost round.forbidden round.window
  { legs
    routes := []
    lowerBound := match round.kind with
      | .reduced => some (lagrangianBound round.objective least E.network.dimension)
      | .farkas => none }

end EdgePricing

end TourPricing
