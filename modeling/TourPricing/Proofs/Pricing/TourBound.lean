import Mathlib.Algebra.Order.BigOperators.Group.List
import Mathlib.Tactic.Linarith
import TourPricing.Pricing.EdgePricing
import TourPricing.Pricing.PathPricing
import TourPricing.Proofs.Exact
import TourPricing.Proofs.Search.Coverage
import TourPricing.Proofs.Tour

namespace TourPricing

variable {E : Expansion} {T : Route} {leg : Leg} {forbidden : List Nat} {window : TimeWindow}

theorem Network.isLeastOf_costs {α : Type} [Scalar α] [LawfulScalar α] (N : Network)
    {cost : Nat → α} (hfin : N.FiniteCosts cost) (keep : Edge → Bool) :
    Scalar.IsLeastOf {c | ∃ e ∈ N.edges, keep e = true ∧ cost e.id = c}
      (((N.edges.toList.filter keep).map fun e => cost e.id).foldl Scalar.least none) := by
  have hmem (c : α) : c ∈ (N.edges.toList.filter keep).map (fun e => cost e.id) ↔
      ∃ e ∈ N.edges, keep e = true ∧ cost e.id = c := by
    simp only [List.mem_map, List.mem_filter, Array.mem_toList_iff, and_assoc]
  have hnumbers : ∀ c ∈ (N.edges.toList.filter keep).map (fun e => cost e.id), c ≤ c := by
    intro c hc
    obtain ⟨e, he, _, rfl⟩ := (hmem c).1 hc
    exact LawfulScalar.le_refl_of_isFinite (hfin e he)
  simpa only [hmem] using Scalar.isLeastOf_foldl_least hnumbers

theorem Network.FiniteCosts.isFinite_least {α : Type} [Scalar α] [LawfulScalar α] {N : Network}
    {cost : Nat → α} (hfin : N.FiniteCosts cost) (keep : Edge → Bool) :
    ∀ m ∈ ((N.edges.toList.filter keep).map fun e => cost e.id).foldl Scalar.least none,
      Scalar.isFinite m = true := by
  intro m hm
  obtain ⟨e, he, _, rfl⟩ := (N.isLeastOf_costs hfin keep).mem m hm
  exact hfin e he

theorem Network.atMost_least_of_mem (N : Network) {cost : Nat → Rat} {keep : Edge → Bool} {e : Edge}
    (he : e ∈ N.edges) (hk : keep e = true) :
    Scalar.AtMost (((N.edges.toList.filter keep).map fun e => cost e.id).foldl Scalar.least none)
      (cost e.id) :=
  (N.isLeastOf_costs (N.finiteCosts cost) keep).exists_le ⟨e, he, hk, rfl⟩

theorem Expansion.exists_leastAdmittedCost_le {α : Type} [Scalar α] [LawfulScalar α]
    {cost : Nat → α} {e : Edge} (hfin : E.network.FiniteCosts cost) (he : e ∈ E.network.edges)
    (hfree : e.id ∉ forbidden) (hdep : leg ∈ E.departuresOf e)
    (hadm : window.admits E.network.source leg.head = true) :
    ∃ m ∈ E.leastAdmittedCost cost forbidden window, m ≤ cost e.id := by
  apply (E.network.isLeastOf_costs hfin _).exists_le
  refine ⟨e, he, ?_, rfl⟩
  rw [Bool.and_eq_true, List.any_eq_true]
  exact ⟨by simpa using hfree, leg, hdep, hadm⟩

/-- The bound is at most the objective with costs added that are as many as the vertices and of
which none is below the least cost. -/
theorem lagrangianBound_le {least : Option Rat} (objective : Rat) (costs : List Rat)
    (h : ∀ c ∈ costs, Scalar.AtMost least c) :
    lagrangianBound objective least costs.length ≤ objective + costs.sum := by
  cases least with
  | none =>
    have hnil : costs = [] := List.eq_nil_iff_forall_not_mem.2 fun c hc => by
      obtain ⟨m, hm, _⟩ := h c hc
      cases hm
    rw [hnil]
    exact le_of_eq (congrArg (objective + ·) (zero_mul _))
  | some m =>
    have hstep : ∀ c ∈ costs, min m 0 ≤ c := fun c hc => by
      obtain ⟨k, hk, hle⟩ := h c hc
      rw [← Option.some.inj hk] at hle
      exact (min_le_left _ _).trans hle
    have hsum := List.card_nsmul_le_sum costs (min m 0) hstep
    rw [nsmul_eq_mul, mul_comm] at hsum
    have hbound : lagrangianBound objective (some m) costs.length =
        objective + min m 0 * (costs.length : Rat) :=
      congrArg (fun step => objective + step * (costs.length : Rat)) (Scalar.min_eq m 0)
    rw [hbound]
    exact add_le_add_right hsum objective

theorem TimeWindow.admits_effective {source : Nat} {s : Stop} (P : EdgePricing)
    (h : window.admits source s = true) : (P.effective window).admits source s = true := by
  rw [EdgePricing.effective]
  split
  · rw [TimeWindow.admits, Bool.and_eq_true] at h ⊢
    exact ⟨rfl, h.2⟩
  · exact h

theorem EdgePricing.considers_iff {P : EdgePricing} {e : Edge} :
    (!(P.admitted E window e).isEmpty) = true ↔
      ∃ leg ∈ E.departuresOf e, (P.effective window).admits E.network.source leg.head = true := by
  rw [Bool.not_eq_true', List.isEmpty_eq_false_iff_exists_mem, admitted]
  simp only [List.mem_filter]

namespace Expansion.IsTour

theorem mem_departuresOf (h : E.IsTour T) (hN : E.network.WellFormed) (hl : leg ∈ T.legs) :
    ∃ e ∈ E.network.edges, e.id = leg.edge ∧ e.travelTime = leg.travelTime ∧
      leg ∈ E.departuresOf e := by
  obtain ⟨hn, e, he, hs, hleg, hle⟩ := hN.mem_legsFrom.1 (h.outgoing leg hl)
  have hdep : leg.tail.time ∈ E.departures e.source := by
    refine List.mem_map.2 ⟨leg.tail, List.mem_filter.2 ⟨h.tail_mem_stops hN hl, ?_⟩, rfl⟩
    rw [hs, hn, beq_self_eq_true]
    rfl
  refine ⟨e, he, congrArg Leg.edge hleg, ?_,
    List.mem_filter.2 ⟨List.mem_map.2 ⟨_, hdep, hleg⟩, decide_eq_true hle⟩⟩
  have htime := congrArg (·.head.time) hleg
  simp only [Edge.departAt] at htime
  rw [Leg.travelTime]
  omega

theorem travelTime_eq (h : E.IsTour T) (hN : E.network.WellFormed) (hl : leg ∈ T.legs) :
    E.network.travelTime leg.edge = leg.travelTime := by
  obtain ⟨e, he, hid, ht, _⟩ := h.mem_departuresOf hN hl
  rw [Network.travelTime, ← hid, E.network.edge?_of_mem he, ← ht]
  rfl

variable {cost : Nat → Rat}

/-- An exhaustive search under a restriction looks at every edge of a tour. -/
theorem atMost_of_exhaustive {S : Search Rat} {r : Restriction} (h : S.expansion.IsTour T)
    (hN : S.expansion.network.WellFormed) (hr : S.rule = r.rule)
    (hp : T.Permitted S.expansion.network.source S.forbidden S.window)
    (he : S.run.exhaustive = true) (hl : leg ∈ T.legs) :
    Scalar.AtMost S.run.leastEdgeCost (S.cost leg.edge) := by
  obtain ⟨s, w⟩ := h.search_walk hr hp
  obtain ⟨before, after, hlegs⟩ := List.append_of_mem hl
  rw [hlegs] at w
  obtain ⟨t, wt, ho, hm⟩ := w.split
  have hd : S.rule.IsDominance S.expansion.network.dimension := hr ▸ r.isDominance _
  have hsettled := Search.settled_of_exhaustive hN (Network.finiteCosts _ _) hd he wt
  exact hsettled.looked (hN.not_terminal ho) leg ho hm.1

theorem atMost_leastAdmittedCost (h : E.IsTour T) (hN : E.network.WellFormed)
    (hp : T.Permitted E.network.source forbidden window) (hl : leg ∈ T.legs) :
    Scalar.AtMost (E.leastAdmittedCost cost forbidden window) (cost leg.edge) := by
  obtain ⟨e, he, hid, _, hdep⟩ := h.mem_departuresOf hN hl
  rw [← hid]
  exact E.exists_leastAdmittedCost_le (E.network.finiteCosts cost) he (hid ▸ hp.free leg hl) hdep
    (hp.admitted leg hl)

theorem atMost_find (h : E.IsTour T) (hN : E.network.WellFormed)
    (hp : T.Permitted E.network.source forbidden window) (P : EdgePricing) (hl : leg ∈ T.legs) :
    Scalar.AtMost (P.find E cost forbidden window).2 (cost leg.edge) := by
  obtain ⟨e, he, hid, _, hdep⟩ := h.mem_departuresOf hN hl
  rw [← hid]
  apply E.network.atMost_least_of_mem he
  rw [Bool.and_eq_true, EdgePricing.considers_iff, hid]
  exact ⟨by simpa using hp.free leg hl, leg, hdep,
    TimeWindow.admits_effective P (hp.admitted leg hl)⟩

end Expansion.IsTour

def Route.reducedCost (T : Route) (d : Duals Rat) : Rat :=
  (T.legs.map fun leg => (leg.travelTime : Rat) - d.get leg.edge).sum

namespace Expansion.IsTour

theorem sum_costs (h : E.IsTour T) (hN : E.network.WellFormed) (d : Duals Rat) :
    (T.legs.map fun leg => CostKind.reduced.cost E.network d leg.edge).sum = T.reducedCost d := by
  rw [Route.reducedCost]
  congr 1
  apply List.map_congr_left
  intro leg hl
  rw [CostKind.cost, h.travelTime_eq hN hl]
  rfl

theorem lagrangianBound_le (h : E.IsTour T) (hN : E.network.WellFormed) {least : Option Rat}
    {d : Duals Rat} (objective : Rat)
    (hl : ∀ leg ∈ T.legs, Scalar.AtMost least (CostKind.reduced.cost E.network d leg.edge)) :
    lagrangianBound objective least E.network.dimension ≤ objective + T.reducedCost d := by
  have hle := TourPricing.lagrangianBound_le objective
    (T.legs.map fun leg => CostKind.reduced.cost E.network d leg.edge) (by
      intro c hc
      obtain ⟨leg, hleg, rfl⟩ := List.mem_map.1 hc
      exact hl leg hleg)
  rwa [List.length_map, h.length_eq, h.sum_costs hN] at hle

/-- The bound that a search under a restriction gives, exhaustive or not, lies below the value of
every tour that it may take. -/
theorem pathBound_le (h : E.IsTour T) (hN : E.network.WellFormed)
    (hp : T.Permitted E.network.source forbidden window) (P : PathPricing) (d : Duals Rat)
    (objective : Rat) :
    PathPricing.bound (P.search E (CostKind.reduced.cost E.network d) forbidden window).run E
        (CostKind.reduced.cost E.network d) forbidden window objective ≤
      objective + T.reducedCost d := by
  apply h.lagrangianBound_le hN objective
  intro leg hl
  split
  · rename_i he
    exact atMost_of_exhaustive
      (S := P.search E (CostKind.reduced.cost E.network d) forbidden window) h hN rfl hp he hl
  · exact h.atMost_leastAdmittedCost hN hp hl

end Expansion.IsTour

/-- On an expansion that can be built, the lower bounds of path pricing and of edge pricing are at
most the objective with the reduced cost of any tour that the round permits. -/
theorem lowerBound_le_tour {name : String} {dimension source horizon : Nat} {arcs : List Arc}
    {limit : Option Nat} {N : Network} {E : Expansion}
    (hN : Network.ofArcs name dimension source arcs limit = .ok N)
    (hE : Expansion.build? N horizon = some E) (round : Round Rat) (hk : round.kind = .reduced) :
    (∀ P : PathPricing, ∃ b, (P.price E round).lowerBound = some b ∧
      ∀ T, E.IsTour T → T.Permitted E.network.source round.forbidden round.window →
        b ≤ round.objective +
          (T.legs.map fun leg => (leg.travelTime : Rat) - round.duals.get leg.edge).sum) ∧
    ∀ P : EdgePricing, ∃ b, (P.price E round).lowerBound = some b ∧
      ∀ T, E.IsTour T → T.Permitted E.network.source round.forbidden round.window →
        b ≤ round.objective +
          (T.legs.map fun leg => (leg.travelTime : Rat) - round.duals.get leg.edge).sum := by
  obtain ⟨rfl, _⟩ := Expansion.of_build? hE
  have h := Network.wellFormed_of_ofArcs hN
  constructor
  · intro P
    refine ⟨_, by rw [PathPricing.price, hk], ?_⟩
    intro T hT hp
    exact hT.pathBound_le h hp P round.duals round.objective
  · intro P
    refine ⟨_, by rw [EdgePricing.price, hk], ?_⟩
    intro T hT hp
    apply hT.lagrangianBound_le h round.objective
    intro leg hl
    exact hT.atMost_find h hp P hl

def Round.triangle : Round Rat :=
  { kind := .reduced, duals := ⟨[2, 1]⟩, objective := 3, forbidden := [3]
    window := ⟨some 3, some 4⟩, incumbent := some 3, bestBound := none }

theorem permitted_triangle : Route.triangle.Permitted Network.triangle.expand.network.source
    Round.triangle.forbidden Round.triangle.window :=
  ⟨by decide, by decide⟩

theorem lowerBound_le_triangle :
    Expansion.build? Network.triangle 10 = some Network.triangle.expand ∧
    (∃ b, (({} : PathPricing).price Network.triangle.expand Round.triangle).lowerBound = some b ∧
      b ≤ 3) ∧
    ∃ b, (({} : EdgePricing).price Network.triangle.expand Round.triangle).lowerBound = some b ∧
      b ≤ 3 := by
  obtain ⟨hpath, hedge⟩ :=
    lowerBound_le_tour Network.ofArcs_triangle build?_triangle Round.triangle rfl
  have hvalue : Round.triangle.objective + (Route.triangle.legs.map fun leg =>
      (leg.travelTime : Rat) - Round.triangle.duals.get leg.edge).sum = 3 := by decide +kernel
  obtain ⟨b, hb, hle⟩ := hpath {}
  obtain ⟨c, hc, hle'⟩ := hedge {}
  exact ⟨build?_triangle, ⟨b, hb, (hle _ isTour_triangle permitted_triangle).trans_eq hvalue⟩,
    c, hc, (hle' _ isTour_triangle permitted_triangle).trans_eq hvalue⟩

/-- Within the horizon only the first vertex is reached, and from there the arrival is no time. -/
def Network.overtaken : Network :=
  { Network.withArcs "overtaken" 3 0 [⟨0, 1, 1⟩, ⟨1, 2, 4294967295⟩, ⟨2, 0, 1⟩] with horizon := 10 }

theorem Network.ofArcs_overtaken : Network.ofArcs "overtaken" 3 0
    [⟨0, 1, 1⟩, ⟨1, 2, 4294967295⟩, ⟨2, 0, 1⟩] (some 10) = .ok Network.overtaken := rfl

theorem build?_overtaken : Network.overtaken.WellFormed ∧
    Expansion.ofNetwork? Network.overtaken 10 = some Network.overtaken.expand ∧
    Expansion.build? Network.overtaken 10 = none :=
  ⟨Network.wellFormed_of_ofArcs Network.ofArcs_overtaken,
    Expansion.ofNetwork?_eq_some_iff.2 ⟨by decide +kernel, rfl⟩, by decide +kernel⟩

end TourPricing
