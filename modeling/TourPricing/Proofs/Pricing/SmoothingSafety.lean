import TourPricing.Pricing.Pricer
import TourPricing.Proofs.Pricing.SmoothedPrices

namespace TourPricing

structure Smoothing.Convex (C : Smoothing Rat) : Prop where
  initial_nonneg : 0 ≤ C.initialAlpha
  initial_le : C.initialAlpha ≤ 1
  max_nonneg : 0 ≤ C.maxAlpha
  max_le : C.maxAlpha ≤ 1
  stepUp_nonneg : 0 ≤ C.stepUp
  stepDown_nonneg : 0 ≤ C.stepDown
  tolerance_nonneg : 0 ≤ C.tolerance

/-- The weight of the center is between zero and one, and the center supports a set of tours. -/
structure SmoothingState.Safe (state : SmoothingState Rat) (F : Set Route) : Prop where
  alpha_nonneg : 0 ≤ state.alpha
  alpha_le : state.alpha ≤ 1
  center : ∀ c ∈ state.center, c.duals.Supports c.objective F

/-- A round reports no bound above the time that one of the tours takes, it contradicts no incumbent
that one of them accounts for, and the state after it is safe. -/
structure Smoothing.Outcome.Safe (outcome : Smoothing.Outcome Rat) (round : Round Rat)
    (F : Set Route) : Prop where
  bounds : ∀ result, outcome.1 = .ok result → BoundsBelow result.lowerBound F
  ok : round.IncumbentIn F → ∃ result, outcome.1 = .ok result
  state : outcome.2.Safe F

variable {E : Expansion} {F : Set Route} {C : Smoothing Rat} {state : SmoothingState Rat}
  {round : Round Rat}

theorem Smoothing.Convex.initial_safe (h : C.Convex) : C.initial.Safe F :=
  ⟨h.initial_nonneg, h.initial_le, fun _ hc => nomatch hc⟩

namespace SmoothingState.Safe

theorem moveCenter (h : state.Safe F) {d : Duals Rat} {objective : Rat}
    (hd : d.Supports objective F) (bound : Option Rat) :
    (state.moveCenter d objective bound).Safe F := by
  cases bound with
  | none => exact h
  | some b =>
    rw [SmoothingState.moveCenter]
    split
    · refine ⟨h.alpha_nonneg, h.alpha_le, ?_⟩
      intro c hc
      obtain rfl := Option.some.inj hc
      exact hd
    · exact h

theorem resetCenter (h : C.Convex) (state : SmoothingState Rat) :
    (C.resetCenter state).Safe F :=
  ⟨h.initial_nonneg, h.initial_le, fun _ hc => nomatch hc⟩

theorem misprice (h : state.Safe F) (hC : C.Convex) : (C.misprice state).Safe F := by
  rw [Smoothing.misprice]
  dsimp only
  split
  · exact resetCenter hC _
  · refine ⟨?_, ?_, h.center⟩
    · rw [Scalar.max_eq]
      exact le_max_right _ _
    · rw [Scalar.max_eq]
      exact max_le ((sub_le_self _ hC.stepDown_nonneg).trans h.alpha_le) zero_le_one

theorem improve (h : state.Safe F) (hC : C.Convex) :
    SmoothingState.Safe
      { state with alpha := Scalar.min (state.alpha + C.stepUp) C.maxAlpha, misprices := 0 } F := by
  refine ⟨?_, ?_, h.center⟩
  · rw [Scalar.min_eq]
    exact le_min (add_nonneg h.alpha_nonneg hC.stepUp_nonneg) hC.max_nonneg
  · rw [Scalar.min_eq]
    exact (min_le_right _ _).trans hC.max_le

end SmoothingState.Safe

theorem BoundsBelow.bestOf {a b : Option Rat} (ha : BoundsBelow a F) (hb : BoundsBelow b F) :
    BoundsBelow (Smoothing.bestOf a b) F := by
  cases a with
  | none => exact hb
  | some x =>
    cases b with
    | none => exact ha
    | some y =>
      intro m hm T hT
      obtain rfl := Option.some.inj hm
      rw [Scalar.max_eq]
      exact max_le (ha x rfl T hT) (hb y rfl T hT)

theorem boundsBelow_reportable? {bound : Rat} (h : ∀ T ∈ F, bound ≤ T.travelTime)
    (objective tolerance : Rat) : BoundsBelow (reportable? bound objective tolerance) F := by
  intro b hb T hT
  rw [mem_reportable? hb]
  exact h T hT

namespace Smoothing

namespace Outcome.Safe

theorem found {result : PricingResult Rat} (hl : BoundsBelow result.lowerBound F)
    (hs : state.Safe F) : Outcome.Safe (.ok result, state) round F := by
  refine ⟨fun r hr => ?_, fun _ => ⟨result, rfl⟩, hs⟩
  rw [← Except.ok.inj hr]
  exact hl

/-- A bound below the time that each tour takes only contradicts what no tour accounts for. -/
theorem contradicted (hC : C.Convex) {bound value : Rat} (hb : ∀ T ∈ F, bound ≤ T.travelTime)
    (hv : contradicted? bound round.incumbent C.tolerance = some value) (hs : state.Safe F) :
    Outcome.Safe (.error ⟨bound, value⟩, state) round F := by
  refine ⟨fun _ h => (nomatch h), fun hi => ?_, hs⟩
  have hnone : contradicted? bound round.incumbent C.tolerance = none := by
    apply contradicted?_eq_none hC.tolerance_nonneg
    intro v hm
    obtain ⟨T, hT, hle⟩ := hi v hm
    exact (hb T hT).trans hle
  rw [hnone] at hv
  cases hv

theorem bestOf {outcome : Outcome Rat} (h : outcome.Safe round F) {lower : Option Rat}
    (hl : BoundsBelow lower F) :
    Outcome.Safe (outcome.1.map fun r => { r with
      lowerBound := Smoothing.bestOf r.lowerBound lower }, outcome.2) round F := by
  obtain ⟨result, next⟩ := outcome
  cases result with
  | error e => exact ⟨fun _ hr => (nomatch hr), fun hi => (nomatch h.ok hi), h.state⟩
  | ok r => exact found ((h.bounds r rfl).bestOf hl) h.state

end Outcome.Safe

variable {P : PathPricing}

theorem priceTrue_safe (hN : E.network.WellFormed) (hC : C.Convex) (hr : round.Allows E F)
    (hs : state.Safe F) : (C.priceTrue P E round state).Safe round F := by
  have hb := fun T (hT : T ∈ F) => hr.bound_le hN P hr.supports hT
  rw [priceTrue]
  dsimp only
  split
  · rename_i hv
    exact .contradicted hC hb hv hs
  · exact .found (boundsBelow_reportable? hb _ _) (hs.moveCenter hr.supports _)

theorem priceCentered_safe (hN : E.network.WellFormed) (hC : C.Convex) (hr : round.Allows E F)
    (hs : state.Safe F) {center : StabilityCenter Rat} (hc : center ∈ state.center) :
    (C.priceCentered P E round state center).Safe round F := by
  have hd := (hs.center center hc).interpolate hr.supports hs.alpha_nonneg hs.alpha_le
  have hb := fun T (hT : T ∈ F) => hr.bound_le hN P hd hT
  rw [priceCentered]
  dsimp only
  split
  · rename_i hv
    exact .contradicted hC hb hv hs
  · have hl := boundsBelow_reportable? hb round.objective C.tolerance
    have hmoved := fun lower => hs.moveCenter hd lower
    split
    · exact (priceTrue_safe hN hC hr ((hmoved _).misprice hC)).bestOf hl
    · exact .found hl ((hmoved _).improve hC)

/-- What one round preserves, whichever way it is priced. -/
theorem price_safe (hN : E.network.WellFormed) (hC : C.Convex)
    (hr : round.kind = .reduced → round.Allows E F) (hs : state.Safe F) :
    (C.price P E round state).Safe round F := by
  rw [price]
  split
  · apply Outcome.Safe.found _ hs
    intro b hb T hT
    rw [PathPricing.price] at hb
    dsimp only at hb
    split at hb
    · rename_i hk
      obtain rfl := Option.some.inj hb
      rw [hk]
      exact (hr hk).bound_le hN P (hr hk).supports hT
    · cases hb
  · rename_i hon
    have hk : round.kind = .reduced := by
      cases hk : round.kind with
      | reduced => rfl
      | farkas => exact absurd (by rw [hk]; rfl) hon
    dsimp only
    split
    · exact priceTrue_safe hN hC (hr hk) (.resetCenter hC _)
    · split
      · exact priceTrue_safe hN hC (hr hk) hs
      · rename_i hc
        exact priceCentered_safe hN hC (hr hk) hs hc

end Smoothing

/-- The rounds that a pricer is given one after another, with what each of them came back with. -/
def Pricer.run {α : Type} [Scalar α] (E : Expansion) : Pricer α → List (Round α) →
    List (Round α × Except (Contradiction α) (PricingResult α))
  | _, [] => []
  | p, round :: rest => (round, (p.price E round).1) :: run E (p.price E round).2 rest

theorem Smoothing.run_safe {P : PathPricing} {rounds : List (Round Rat)}
    (hN : E.network.WellFormed) (hC : C.Convex)
    (hr : ∀ round ∈ rounds, round.kind = .reduced → round.Allows E F) (hs : state.Safe F) :
    ∀ p ∈ (Pricer.stabilized P C state).run E rounds,
      p.1 ∈ rounds ∧ ∃ next, Smoothing.Outcome.Safe (p.2, next) p.1 F := by
  induction rounds generalizing state with
  | nil => exact fun p hp => nomatch hp
  | cons round rest ih =>
    have hstep := Smoothing.price_safe (P := P) hN hC (hr round List.mem_cons_self) hs
    intro p hp
    rcases List.mem_cons.1 hp with rfl | hp
    · exact ⟨List.mem_cons_self, _, hstep⟩
    · obtain ⟨hm, hsafe⟩ := ih (fun r h => hr r (List.mem_cons_of_mem _ h)) hstep.state p hp
      exact ⟨List.mem_cons_of_mem _ hm, hsafe⟩

end TourPricing
