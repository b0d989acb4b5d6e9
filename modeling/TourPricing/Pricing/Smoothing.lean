import TourPricing.Pricing.PathPricing

namespace TourPricing

/-- How dual prices are smoothed: the weight of the center and how it adapts. -/
structure Smoothing (α : Type) where
  enabled : Bool
  initialAlpha : α
  maxAlpha : α
  stepUp : α
  stepDown : α
  /-- How many rounds in a row may find nothing before the center is given up. -/
  maxMisprices : Nat
  /-- The relative gap to the incumbent below which the center is given up. -/
  initialProveGap : α
  /-- What the gap is multiplied by whenever this happens. -/
  proveGapFactor : α
  tolerance : α

/-- A point of dual prices with its dual objective and the bound found there. -/
structure StabilityCenter (α : Type) where
  duals : Duals α
  objective : α
  bound : α

/-- What smoothing carries from round to round. -/
structure SmoothingState (α : Type) where
  center : Option (StabilityCenter α)
  alpha : α
  misprices : Nat
  proveGap : α

/-- A bound that lies above the value of an accepted solution. -/
structure Contradiction (α : Type) where
  bound : α
  incumbent : α

namespace Smoothing

variable {α : Type} [Scalar α]

def standard : Smoothing α :=
  { enabled := true
    initialAlpha := Scalar.ofDecimal 5 1
    maxAlpha := Scalar.ofDecimal 9 1
    stepUp := Scalar.ofDecimal 1 1
    stepDown := Scalar.ofDecimal 3 1
    maxMisprices := 5
    initialProveGap := Scalar.ofDecimal 5 2
    proveGapFactor := Scalar.ofDecimal 5 1
    tolerance := Scalar.ofDecimal 1 6 }

def initial (C : Smoothing α) : SmoothingState α :=
  ⟨none, C.initialAlpha, 0, C.initialProveGap⟩

/-- The state without a center; the prove gap stays. -/
def resetCenter (C : Smoothing α) (state : SmoothingState α) : SmoothingState α :=
  { state with center := none, alpha := C.initialAlpha, misprices := 0 }

end Smoothing

namespace SmoothingState

variable {α : Type} [Scalar α]

/-- Moves the center to a point with a better bound. -/
def moveCenter (state : SmoothingState α) (duals : Duals α) (objective : α) (bound : Option α) :
    SmoothingState α :=
  match bound with
  | none => state
  | some b =>
    if state.center.all (·.bound < b) then { state with center := some ⟨duals, objective, b⟩ }
    else state

/-- Whether the gap between incumbent and best bound is below the prove gap. -/
def gapClosed (state : SmoothingState α) (round : Round α) : Bool :=
  match round.incumbent, round.bestBound with
  | some value, some bound => (value - bound) / Scalar.magnitude value < state.proveGap
  | _, _ => false

end SmoothingState

namespace Smoothing

variable {α : Type} [Scalar α]

/-- The outcome of a priced round and the state after it, which also a failing round may change. -/
abbrev Outcome (α : Type) := Except (Contradiction α) (PricingResult α) × SmoothingState α

/-- Prices a round under the current prices. -/
def priceTrue (C : Smoothing α) (P : PathPricing) (E : Expansion) (round : Round α)
    (state : SmoothingState α) : Outcome α :=
  let cost := CostKind.reduced.cost E.network round.duals
  let found := (P.search E cost round.forbidden round.window).run
  let bound := PathPricing.bound found E cost round.forbidden round.window round.objective
  match contradicted? bound round.incumbent C.tolerance with
  | some value => (.error ⟨bound, value⟩, state)
  | none =>
    let lower := reportable? bound round.objective C.tolerance
    (.ok ⟨[], found.paths.map (·.2), lower⟩, state.moveCenter round.duals round.objective lower)

def bestOf (a b : Option α) : Option α :=
  match a, b with
  | some x, some y => some (Scalar.max x y)
  | some x, none => some x
  | none, b => b

/-- The state after a round that found nothing. -/
def misprice (C : Smoothing α) (state : SmoothingState α) : SmoothingState α :=
  let state := { state with
    misprices := state.misprices + 1
    alpha := Scalar.max (state.alpha - C.stepDown) (Scalar.ofNat 0) }
  if C.maxMisprices ≤ state.misprices then C.resetCenter state else state

/-- Prices a round at the smoothed point between the current prices and the center. -/
def priceCentered (C : Smoothing α) (P : PathPricing) (E : Expansion) (round : Round α)
    (state : SmoothingState α) (center : StabilityCenter α) : Outcome α :=
  let duals := center.duals.interpolate state.alpha round.duals
  let objective :=
    state.alpha * center.objective + (Scalar.ofNat 1 - state.alpha) * round.objective
  let cost := CostKind.reduced.cost E.network duals
  let found := (P.search E cost round.forbidden round.window).run
  let bound := PathPricing.bound found E cost round.forbidden round.window objective
  match contradicted? bound round.incumbent C.tolerance with
  | some value => (.error ⟨bound, value⟩, state)
  | none =>
    let lower := reportable? bound round.objective C.tolerance
    let current := CostKind.reduced.cost E.network round.duals
    let improving := (found.paths.map (·.2)).filter fun r => r.cost current < -Scalar.costTolerance
    let state := state.moveCenter duals objective lower
    if improving.isEmpty then
      let (result, state) := C.priceTrue P E round (C.misprice state)
      (result.map fun r => { r with lowerBound := bestOf r.lowerBound lower }, state)
    else
      let alpha := Scalar.min (state.alpha + C.stepUp) C.maxAlpha
      (.ok ⟨[], improving, lower⟩, { state with alpha, misprices := 0 })

/-- Prices a round. Smoothing is for reduced costs; a closed gap or a missing center leads back to
the current prices. -/
def price (C : Smoothing α) (P : PathPricing) (E : Expansion) (round : Round α)
    (state : SmoothingState α) : Outcome α :=
  if round.kind == .farkas || !C.enabled then (.ok (P.price E round), state)
  else if state.gapClosed round then
    let state := { state with proveGap := state.proveGap * C.proveGapFactor }
    C.priceTrue P E round (C.resetCenter state)
  else
    match state.center with
    | none => C.priceTrue P E round state
    | some center => C.priceCentered P E round state center

end Smoothing

end TourPricing
