import TourPricing.Pricing.EdgePricing
import TourPricing.Pricing.Smoothing

namespace TourPricing

inductive PricerKind where
  | path
  | edge
  | stabilized
deriving DecidableEq, Inhabited

def PricerKind.name : PricerKind → String
  | .path => "Path"
  | .edge => "Edge"
  | .stabilized => "Stabilized"

structure PricingConfig (α : Type) where
  path : PathPricing
  edge : EdgePricing
  smoothing : Smoothing α
  /-- Whether new variables are continuous instead of binary. -/
  relaxed : Bool

def PricingConfig.standard {α : Type} [Scalar α] : PricingConfig α :=
  ⟨{}, {}, .standard, false⟩

/-- A pricer with its settings and with what it carries from round to round. -/
inductive Pricer (α : Type) where
  | path (P : PathPricing)
  | edge (P : EdgePricing)
  | stabilized (P : PathPricing) (C : Smoothing α) (state : SmoothingState α)

namespace Pricer

variable {α : Type} [Scalar α]

def build (kind : PricerKind) (config : PricingConfig α) : Pricer α :=
  match kind with
  | .path => .path config.path
  | .edge => .edge config.edge
  | .stabilized => .stabilized config.path config.smoothing config.smoothing.initial

def name : Pricer α → String
  | .path P => P.name
  | .edge _ => EdgePricing.name
  | .stabilized .. => "StabilizingPricer"

def price (p : Pricer α) (E : Expansion) (round : Round α) :
    Except (Contradiction α) (PricingResult α) × Pricer α :=
  match p with
  | .path P => (.ok (P.price E round), p)
  | .edge P => (.ok (P.price E round), p)
  | .stabilized P C state =>
    let (result, state) := C.price P E round state
    (result, .stabilized P C state)

end Pricer

end TourPricing
