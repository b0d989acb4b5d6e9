import TourPricing.Scalar

namespace TourPricing

variable {α : Type} [Scalar α]

/-- The objective, lowered by the least edge cost once for each vertex. A tour takes one edge out of
every vertex, and none costs less. Without a finite negative cost the bound is the objective. -/
def lagrangianBound (objective : α) (leastEdgeCost : Option α) (dimension : Nat) : α :=
  let step := match leastEdgeCost with
    | some c => if Scalar.isFinite c then Scalar.min c (Scalar.ofNat 0) else Scalar.ofNat 0
    | none => Scalar.ofNat 0
  objective + step * Scalar.ofNat dimension

/-- Whether `a` is more than a relative tolerance above `b`. -/
def clearlyAbove (tolerance a b : α) : Bool :=
  b + tolerance * Scalar.magnitude b < a

def contradicted? (bound : α) (incumbent : Option α) (tolerance : α) : Option α :=
  incumbent.filter fun value => clearlyAbove tolerance bound value

/-- A bound as far as it can be reported: it has to be finite, and not above the objective that it
is meant to bound. -/
def reportable? (bound objective tolerance : α) : Option α :=
  if Scalar.isFinite bound && !clearlyAbove tolerance bound objective then some bound else none

end TourPricing
