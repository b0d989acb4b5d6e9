import TourPricing.Decimal.Layout
import TourPricing.Master.Basic
import TourPricing.Tour.Basic

namespace TourPricing

inductive Phase where
  | uninitialized
  | active
  | tornDown
deriving DecidableEq, Inhabited

def Phase.describe : Phase → String
  | .uninitialized => "not initialized"
  | .active => "already active"
  | .tornDown => "torn down"

inductive PricingError (α : Type) where
  | untraceable (reason : Untraceable)
  /-- A bound above the value of an accepted solution. -/
  | inconsistentBound (bound incumbent : α)
  | invalidState (phase : Phase)
  /-- A route through a vertex that the network does not have. -/
  | unknownVertex
  /-- A leg or a route whose time does not fit. -/
  | timeOverflow
  | master (e : MasterError)

/-- The text of an error, given how numbers are written. -/
def PricingError.message {α : Type} (number : α → String) : PricingError α → String
  | .untraceable reason => "tour cannot be traced through the network: " ++ reason.message
  | .inconsistentBound bound incumbent =>
    "stabilized bound " ++ number bound ++ " exceeds incumbent value " ++ number incumbent
  | .invalidState phase => "pricing manager is " ++ phase.describe
  | .unknownVertex => "route leads through an unknown vertex"
  | .timeOverflow => "travel time does not fit"
  | .master e => e.message

/-- The text of an error; numbers never have a power of ten. -/
def PricingError.text : PricingError Float → String :=
  message (Decimal.renderFloat .plain)

end TourPricing
