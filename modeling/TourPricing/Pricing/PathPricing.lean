import TourPricing.Pricing.Bound
import TourPricing.Pricing.Round
import TourPricing.Search.Basic

namespace TourPricing

/-- How paths are priced: what they may visit, and the limits of the search for them. -/
structure PathPricing where
  restriction : Restriction := .acyclic 3
  maxPaths : Nat := 10
  labelLimit : Nat := 64
deriving DecidableEq

namespace PathPricing

variable {α : Type} [Scalar α]

def name (P : PathPricing) : String :=
  match P.restriction with
  | .acyclic _ => "AcyclicPathPricer"
  | .holeFree => "HoleFreePathPricer"
  | .twoCycleFree => "TwoCycleFreePathPricer"

def search (P : PathPricing) (E : Expansion) (cost : Nat → α) (forbidden : List Nat)
    (window : TimeWindow) : Search α :=
  { expansion := E, cost, forbidden, window, rule := P.restriction.rule
    limits := ⟨P.maxPaths, P.labelLimit, -Scalar.costTolerance⟩ }

end PathPricing

/-- The least cost of all edges that are not forbidden and have a departure within the window,
whether or not a search would come across them. -/
def Expansion.leastAdmittedCost {α : Type} [Scalar α] (E : Expansion) (cost : Nat → α)
    (forbidden : List Nat) (window : TimeWindow) : Option α :=
  let admitted := E.network.edges.toList.filter fun e =>
    !forbidden.contains e.id &&
      (E.departuresOf e).any fun leg => window.admits E.network.source leg.head
  (admitted.map fun e => cost e.id).foldl Scalar.least none

namespace PathPricing

variable {α : Type} [Scalar α]

/-- The bound that a search gives. A search that dropped labels may have missed the cheapest edge;
then all edges are looked at. -/
def bound (found : SearchResult α) (E : Expansion) (cost : Nat → α) (forbidden : List Nat)
    (window : TimeWindow) (objective : α) : α :=
  let least :=
    if found.exhaustive then found.leastEdgeCost else E.leastAdmittedCost cost forbidden window
  lagrangianBound objective least E.network.dimension

/-- The walks of negative cost that a round finds, and the bound of a round on reduced costs. -/
def price (P : PathPricing) (E : Expansion) (round : Round α) : PricingResult α :=
  let cost := round.kind.cost E.network round.duals
  let found := (P.search E cost round.forbidden round.window).run
  { legs := []
    routes := found.paths.map (·.2)
    lowerBound := match round.kind with
      | .reduced => some (bound found E cost round.forbidden round.window round.objective)
      | .farkas => none }

end PathPricing

end TourPricing
