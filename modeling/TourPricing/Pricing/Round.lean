import TourPricing.Pricing.Duals
import TourPricing.Route

namespace TourPricing

/-- The state of the master in which a round is priced, with what is known about its optimum. -/
structure Round (α : Type) where
  kind : CostKind
  duals : Duals α
  /-- The objective of the relaxation; it only matters for reduced costs. -/
  objective : α
  forbidden : List Nat
  window : TimeWindow
  /-- The value of the best accepted solution. -/
  incumbent : Option α
  /-- The best bound reported so far. -/
  bestBound : Option α

/-- The columns that a round found, single legs or whole routes, and a bound on the objective. -/
structure PricingResult (α : Type) where
  legs : List Leg
  routes : List Route
  lowerBound : Option α

def PricingResult.isEmpty {α : Type} (r : PricingResult α) : Bool :=
  r.legs.isEmpty && r.routes.isEmpty

end TourPricing
