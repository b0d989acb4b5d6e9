import TourPricing.Proofs.Pricing.SmoothingSafety

namespace TourPricing

section

variable {α : Type} [Scalar α] {E : Expansion} {P : PathPricing} {C : Smoothing α}
  {state : SmoothingState α} {round : Round α} {result : PricingResult α} {r : Route}

def Round.search (round : Round α) (P : PathPricing) (E : Expansion) : Search α :=
  P.search E (CostKind.reduced.cost E.network round.duals) round.forbidden round.window

omit [Scalar α] in
theorem Search.Feasible.of_same {S S' : Search α} {restriction : Restriction}
    (h : S.Feasible restriction r) (hE : S'.expansion = S.expansion)
    (hf : S'.forbidden = S.forbidden) (hw : S'.window = S.window) : S'.Feasible restriction r := by
  obtain ⟨expansion, cost, forbidden, window, rule, limits⟩ := S'
  subst hE hf hw
  exact ⟨h.nonempty, h.connected, h.departs, h.returns, h.returns_once, h.outgoing, h.by_horizon,
    h.free, h.admitted, h.not_late, h.not_early, h.obeys⟩

/-- Whatever prices steer the search, its routes are feasible in the round. -/
theorem PathPricing.feasible_of_mem (hN : E.network.WellFormed) {d : Duals α}
    (hr : r ∈ (P.search E (CostKind.reduced.cost E.network d) round.forbidden
      round.window).run.paths.map (·.2)) :
    (round.search P E).Feasible P.restriction r ∧
      r.cost (CostKind.reduced.cost E.network d) < -Scalar.costTolerance := by
  obtain ⟨p, hp, rfl⟩ := List.mem_map.1 hr
  obtain ⟨legs, ⟨s, w, ht⟩, rfl, hlt⟩ := Search.closedWalk_of_mem_run_paths hN hp
  have hf := Search.feasible_of_walk (r := P.restriction) hN rfl w ht
  have hf' : (round.search P E).Feasible P.restriction ⟨legs⟩ := hf.of_same rfl rfl rfl
  exact ⟨hf', hlt⟩

/-- A result is faithful to a round if its routes are feasible and improve under the current prices,
and if there are some whenever path pricing finds any. -/
structure Round.Faithful (round : Round α) (P : PathPricing) (E : Expansion)
    (result : PricingResult α) : Prop where
  feasible : ∀ r ∈ result.routes, (round.search P E).Feasible P.restriction r
  improves : ∀ r ∈ result.routes,
    r.cost (CostKind.reduced.cost E.network round.duals) < -Scalar.costTolerance
  covers : (P.price E round).routes ≠ [] → result.routes ≠ []

theorem Round.faithful_price (hN : E.network.WellFormed) (hk : round.kind = .reduced) :
    round.Faithful P E (P.price E round) := by
  have hroutes : (P.price E round).routes = (round.search P E).run.paths.map (·.2) := by
    rw [PathPricing.price, hk]
    rfl
  have hmem (r : Route) (hr : r ∈ (P.price E round).routes) :
      (round.search P E).Feasible P.restriction r ∧
        r.cost (CostKind.reduced.cost E.network round.duals) < -Scalar.costTolerance := by
    rw [hroutes] at hr
    exact PathPricing.feasible_of_mem hN hr
  exact ⟨fun r hr => (hmem r hr).1, fun r hr => (hmem r hr).2, id⟩

theorem Round.Faithful.congr {other : PricingResult α} (h : round.Faithful P E result)
    (heq : other.routes = result.routes) : round.Faithful P E other := by
  refine ⟨fun r hr => ?_, fun r hr => ?_, fun hne => ?_⟩
  · exact h.feasible r (heq ▸ hr)
  · exact h.improves r (heq ▸ hr)
  · rw [heq]
    exact h.covers hne

namespace Smoothing

theorem routes_priceTrue (hk : round.kind = .reduced)
    (h : (C.priceTrue P E round state).1 = .ok result) :
    result.routes = (P.price E round).routes := by
  rw [priceTrue] at h
  dsimp only at h
  split at h
  · cases h
  · obtain rfl := Except.ok.inj h
    rw [PathPricing.price, hk]

theorem faithful_priceTrue (hN : E.network.WellFormed) (hk : round.kind = .reduced)
    (h : (C.priceTrue P E round state).1 = .ok result) : round.Faithful P E result :=
  (Round.faithful_price hN hk).congr (routes_priceTrue hk h)

theorem faithful_priceCentered (hN : E.network.WellFormed) (hk : round.kind = .reduced)
    {center : StabilityCenter α}
    (h : (C.priceCentered P E round state center).1 = .ok result) : round.Faithful P E result := by
  rw [priceCentered] at h
  dsimp only at h
  split at h
  · cases h
  · split at h
    · cases hfall : (C.priceTrue P E round (C.misprice (state.moveCenter _ _ _))).1 with
      | error e =>
        rw [hfall] at h
        cases h
      | ok fallback =>
        rw [hfall] at h
        obtain rfl := Except.ok.inj h
        exact (faithful_priceTrue hN hk hfall).congr rfl
    · rename_i hne
      obtain rfl := Except.ok.inj h
      refine ⟨fun r hr => ?_, fun r hr => ?_, fun _ hnil => hne (List.isEmpty_iff.2 hnil)⟩
      · exact (PathPricing.feasible_of_mem hN (List.mem_filter.1 hr).1).1
      · exact of_decide_eq_true (List.mem_filter.1 hr).2

/-- What a round comes back with is faithful to it, whichever way it is priced. -/
theorem faithful_of_price (hN : E.network.WellFormed) (hk : round.kind = .reduced)
    (h : (C.price P E round state).1 = .ok result) : round.Faithful P E result := by
  rw [price] at h
  dsimp only at h
  split at h
  · obtain rfl := Except.ok.inj h
    exact Round.faithful_price hN hk
  · split at h
    · exact faithful_priceTrue hN hk h
    · split at h
      · exact faithful_priceTrue hN hk h
      · exact faithful_priceCentered hN hk h

theorem exists_state_of_mem_run {rounds : List (Round α)}
    {p : Round α × Except (Contradiction α) (PricingResult α)}
    (hp : p ∈ (Pricer.stabilized P C state).run E rounds) :
    ∃ before, p.2 = (C.price P E p.1 before).1 := by
  induction rounds generalizing state with
  | nil => exact nomatch hp
  | cons round rest ih =>
    rcases List.mem_cons.1 hp with rfl | hp
    · exact ⟨state, rfl⟩
    · exact ih hp

end Smoothing

end

theorem Route.cost_eq_reducedCost {E : Expansion} {r : Route} (hN : E.network.WellFormed)
    (hout : ∀ leg ∈ r.legs, leg ∈ E.outgoing leg.tail) (d : Duals Rat) :
    r.cost (CostKind.reduced.cost E.network d) = r.reducedCost d := by
  have hsum (l : List Rat) : Scalar.sum l = l.sum := (List.sum_eq_foldl).symm
  rw [Route.cost, hsum, Route.reducedCost]
  congr 1
  apply List.map_congr_left
  intro leg hl
  obtain ⟨_, e, he, _, hleg, _⟩ := hN.mem_legsFrom.1 (hout leg hl)
  have htime : E.network.travelTime leg.edge = leg.travelTime := by
    rw [← hleg, Network.travelTime, Edge.departAt, E.network.edge?_of_mem he]
    simp [Leg.travelTime]
  rw [CostKind.cost, htime]
  rfl

/-- A stabilized pricer that is started in any state returns only feasible routes that cost clearly
less than nothing under the current prices, and some in every round in which path pricing by itself
returns any. -/
theorem stabilized_run_faithful (E : Expansion) (hN : E.network.WellFormed) (P : PathPricing)
    (C : Smoothing Rat) (state : SmoothingState Rat) (rounds : List (Round Rat))
    (round : Round Rat) (result : PricingResult Rat)
    (h : (round, .ok result) ∈ (Pricer.stabilized P C state).run E rounds)
    (hk : round.kind = .reduced) :
    (∀ r ∈ result.routes,
      (r.legs.map fun leg => (leg.travelTime : Rat) - round.duals.get leg.edge).sum <
          -(1 / 10 ^ 6) ∧
        (P.search E (CostKind.reduced.cost E.network round.duals) round.forbidden
          round.window).Feasible P.restriction r) ∧
    ∀ plain, ((Pricer.path P).price E round).1 = .ok plain → plain.routes ≠ [] →
      result.routes ≠ [] := by
  obtain ⟨before, hprice⟩ := Smoothing.exists_state_of_mem_run h
  have hf := Smoothing.faithful_of_price hN hk hprice.symm
  constructor
  · intro r hr
    have hfeasible := hf.feasible r hr
    have hlt := hf.improves r hr
    rw [Route.cost_eq_reducedCost hN hfeasible.outgoing] at hlt
    have htol : (Scalar.costTolerance : Rat) = 1 / 10 ^ 6 := by decide +kernel
    rw [htol] at hlt
    exact ⟨hlt, hfeasible⟩
  · intro plain hplain hne
    obtain rfl := Except.ok.inj hplain
    exact hf.covers hne

def Round.idle : Round Rat :=
  { Round.triangle with duals := ⟨[]⟩, incumbent := none }

/-- A round whose prices pay for a route, but not halfway to those of an idle round. -/
def Round.rewarding : Round Rat :=
  { Round.triangle with duals := ⟨[5 / 2, 1]⟩, incumbent := none }

/-- The center of the first round hides the route of the second one, which is found all the same. -/
theorem stabilized_run_faithful_rewarding :
    ∃ result, (Round.rewarding, .ok result) ∈
        (Pricer.stabilized {} .standard Smoothing.standard.initial).run Network.triangle.expand
          [Round.idle, Round.rewarding] ∧
      result.routes ≠ [] ∧ ∀ r ∈ result.routes,
        (r.legs.map fun leg => (leg.travelTime : Rat) - Round.rewarding.duals.get leg.edge).sum <
          -(1 / 10 ^ 6) := by
  have hN : Network.triangle.expand.network.WellFormed :=
    Network.wellFormed_of_ofArcs Network.ofArcs_triangle
  have hC : (Smoothing.standard : Smoothing Rat).Convex := by
    constructor <;> decide +kernel
  have hallows : ∀ round ∈ [Round.idle, Round.rewarding], round.kind = .reduced →
      round.Allows Network.triangle.expand ∅ := fun _ _ _ => ⟨nofun, nofun, nofun⟩
  have hok := Smoothing.run_safe (P := {}) hN hC hallows hC.initial_safe _
    (List.mem_cons_of_mem _ List.mem_cons_self)
  obtain ⟨_, next, hsafe⟩ := hok
  obtain ⟨result, hresult⟩ := hsafe.ok nofun
  have hmem : (Round.rewarding, .ok result) ∈ (Pricer.stabilized {} .standard
      Smoothing.standard.initial).run Network.triangle.expand [Round.idle, Round.rewarding] := by
    rw [← hresult]
    exact List.mem_cons_of_mem _ List.mem_cons_self
  obtain ⟨hroutes, hcovers⟩ := stabilized_run_faithful Network.triangle.expand hN {} .standard
    Smoothing.standard.initial _ _ result hmem rfl
  refine ⟨result, hmem, hcovers _ rfl fun hnil => ?_, fun r hr => (hroutes r hr).1⟩
  have hlen := congrArg List.length hnil
  rw [PathPricing.price] at hlen
  dsimp only at hlen
  rw [List.length_map, Search.run_paths_length] at hlen
  revert hlen
  decide +kernel

end TourPricing
