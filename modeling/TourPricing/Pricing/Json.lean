import TourPricing.Json.Parser
import TourPricing.Network.Draft
import TourPricing.Pricing.Pricer

namespace TourPricing

/-- A restriction is written by its name, or as an object with its name as the only member. -/
def Restriction.ofJson? : Json → Option Restriction
  | .text "hole-free" | .object [("hole-free", .null)] => some .holeFree
  | .text "two-cycle-free" | .object [("two-cycle-free", .null)] => some .twoCycleFree
  | .object [("acyclic", j)] => do
    let r ← j.record? ["lookback"]
    pure (.acyclic (← Json.field? r "lookback" Json.index?))
  | _ => none

def Restriction.toJson : Restriction → Json
  | .acyclic k => .object [("acyclic", .object [("lookback", .nat k)])]
  | .holeFree => .text "hole-free"
  | .twoCycleFree => .text "two-cycle-free"

def PathPricing.ofJson? (j : Json) : Option PathPricing := do
  let r ← j.record? ["restriction", "max_paths", "label_limit"]
  let d : PathPricing := {}
  pure
    { restriction := ← Json.fieldOr? r "restriction" Restriction.ofJson? d.restriction
      maxPaths := ← Json.fieldOr? r "max_paths" Json.index? d.maxPaths
      labelLimit := ← Json.fieldOr? r "label_limit" Json.index? d.labelLimit }

def EdgePricing.ofJson? (j : Json) : Option EdgePricing := do
  let r ← j.record? ["num_edges", "relaxed"]
  let d : EdgePricing := {}
  pure
    { perEdge := ← Json.fieldOr? r "num_edges" Json.index? d.perEdge
      relaxed := ← Json.fieldOr? r "relaxed" Json.bool? d.relaxed }

def Smoothing.ofJson? (j : Json) : Option (Smoothing Float) := do
  let r ← j.record? ["enabled", "initial_alpha", "max_alpha", "alpha_step_up", "alpha_step_down",
    "max_misprices", "initial_prove_gap", "prove_gap_factor", "tolerance"]
  let d : Smoothing Float := .standard
  pure
    { enabled := ← Json.fieldOr? r "enabled" Json.bool? d.enabled
      initialAlpha := ← Json.fieldOr? r "initial_alpha" Json.float? d.initialAlpha
      maxAlpha := ← Json.fieldOr? r "max_alpha" Json.float? d.maxAlpha
      stepUp := ← Json.fieldOr? r "alpha_step_up" Json.float? d.stepUp
      stepDown := ← Json.fieldOr? r "alpha_step_down" Json.float? d.stepDown
      maxMisprices := ← Json.fieldOr? r "max_misprices" Json.index? d.maxMisprices
      initialProveGap := ← Json.fieldOr? r "initial_prove_gap" Json.float? d.initialProveGap
      proveGapFactor := ← Json.fieldOr? r "prove_gap_factor" Json.float? d.proveGapFactor
      tolerance := ← Json.fieldOr? r "tolerance" Json.float? d.tolerance }

namespace PricingConfig

def ofJson? (j : Json) : Option (PricingConfig Float) := do
  let r ← j.record? ["path", "edge", "stabilization", "manager"]
  let d : PricingConfig Float := .standard
  let relaxed? (j : Json) : Option Bool := do
    let r ← j.record? ["relaxed"]
    Json.fieldOr? r "relaxed" Json.bool? d.relaxed
  pure
    { path := ← Json.fieldOr? r "path" PathPricing.ofJson? d.path
      edge := ← Json.fieldOr? r "edge" EdgePricing.ofJson? d.edge
      smoothing := ← Json.fieldOr? r "stabilization" Smoothing.ofJson? d.smoothing
      relaxed := ← Json.fieldOr? r "manager" relaxed? d.relaxed }

def parse? (text : String) : Option (PricingConfig Float) :=
  (Json.parse? text).bind ofJson?

end PricingConfig

/-- Prices are written as an array, or as a record around one. -/
def Duals.ofJson? (j : Json) : Option (Duals Float) :=
  match Json.array? Json.float? j with
  | some values => some ⟨values⟩
  | none => do
    let r ← j.record? ["values"]
    pure ⟨← Json.field? r "values" (Json.array? Json.float?)⟩

def PricingResult.toJson (r : PricingResult Float) : Json :=
  .object [("edges", .array (r.legs.map Leg.toJson)),
    ("paths", .array (r.routes.map Route.toJson)), ("lower_bound", .option .float r.lowerBound)]

end TourPricing
