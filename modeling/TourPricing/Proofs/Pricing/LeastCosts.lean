import TourPricing.Proofs.Pricing.Narrowing

namespace TourPricing

variable {α : Type} [Scalar α] {E : Expansion} {cost : Nat → α} {forbidden : List Nat}
  {window : TimeWindow}

theorem EdgePricing.find_least_of_strict {P : EdgePricing} (hP : P.relaxed = false) :
    (P.find E cost forbidden window).2 = E.leastAdmittedCost cost forbidden window := by
  have heffective : P.effective window = window := if_neg (Bool.eq_false_iff.1 hP)
  have hconsiders (e : Edge) : (!(P.admitted E window e).isEmpty) =
      (E.departuresOf e).any fun leg => window.admits E.network.source leg.head := by
    rw [Bool.eq_iff_iff, considers_iff, heffective, List.any_eq_true]
  simp only [find, hconsiders, Expansion.leastAdmittedCost]

section

variable [LawfulScalar α]

theorem EdgePricing.exists_find_le (P : EdgePricing) (hfin : E.network.FiniteCosts cost) :
    ∀ m ∈ E.leastAdmittedCost cost forbidden window,
      ∃ k ∈ (P.find E cost forbidden window).2, k ≤ m := by
  apply Network.exists_least_le_of_imp rfl hfin
  intro e _ hk
  rw [Bool.and_eq_true, List.any_eq_true] at hk
  rw [Bool.and_eq_true, considers_iff]
  obtain ⟨hfree, leg, hdep, hadm⟩ := hk
  exact ⟨hfree, leg, hdep, TimeWindow.admits_effective P hadm⟩

/-- A search comes across no edge that is cheaper than all with an admitted departure, whatever its
rule and its limits are. -/
theorem Search.exists_leastAdmittedCost_le (S : Search α) (h : S.expansion.network.WellFormed)
    (hfin : S.expansion.network.FiniteCosts S.cost) :
    ∀ m ∈ S.run.leastEdgeCost,
      ∃ k ∈ S.expansion.leastAdmittedCost S.cost S.forbidden S.window, k ≤ m := by
  intro m hm
  obtain ⟨leg, hl, rfl⟩ := exists_looksAt_of_least h hm
  obtain ⟨hfree, hadm, e, he, hid, hdep⟩ := hl.exists_departure h
  rw [← hid] at hfree ⊢
  exact Expansion.exists_leastAdmittedCost_le hfin he hfree hdep hadm

end

structure Round.IsFinite (round : Round α) (N : Network) : Prop where
  costs : N.FiniteCosts (round.kind.cost N round.duals)
  objective : Scalar.isFinite round.objective = true
  dimension : Scalar.isFinite (Scalar.ofNat N.dimension : α) = true

variable [LawfulScalar α]

/-- The bound of edge pricing is at most the bound of path pricing. -/
theorem Round.IsFinite.bound_le {round : Round α} (hround : round.IsFinite E.network)
    (h : E.network.WellFormed) (P : PathPricing) (Q : EdgePricing) :
    lagrangianBound round.objective
        (Q.find E (round.kind.cost E.network round.duals) round.forbidden round.window).2
        E.network.dimension ≤
      PathPricing.bound
        (P.search E (round.kind.cost E.network round.duals) round.forbidden round.window).run E
        (round.kind.cost E.network round.duals) round.forbidden round.window round.objective := by
  rw [PathPricing.bound]
  split
  · apply lagrangianBound_le_of_least hround.objective hround.dimension
      (Search.isFinite_of_least h hround.costs) (hround.costs.isFinite_least _)
    intro m hm
    obtain ⟨k, hk, hkm⟩ := Search.exists_leastAdmittedCost_le _ h hround.costs m hm
    obtain ⟨l, hl, hlk⟩ := Q.exists_find_le hround.costs k hk
    exact ⟨l, hl, LawfulScalar.le_trans hlk hkm⟩
  · exact lagrangianBound_le_of_least hround.objective hround.dimension
      (hround.costs.isFinite_least _) (hround.costs.isFinite_least _)
      (Q.exists_find_le hround.costs)

/-- On an expansion that can be built, edge pricing that keeps to the window and path pricing go by
the same least cost. Without the upper limit it is no greater, and no search comes across an edge
that is cheaper, whatever its restriction and its limits are. So the bound of path pricing is at
least the one of edge pricing, and the two are equal if edge pricing keeps to the window and the
search for paths has dropped labels. -/
theorem least_costs_agree {N : Network} {horizon : Nat} (hN : N.WellFormed)
    (hE : Expansion.build? N horizon = some E) :
    (∀ (cost : Nat → α) (forbidden : List Nat) (window : TimeWindow), E.network.FiniteCosts cost →
      (∀ P : EdgePricing, P.relaxed = false →
        (P.find E cost forbidden window).2 = E.leastAdmittedCost cost forbidden window) ∧
      (∀ P : EdgePricing, ∀ m ∈ E.leastAdmittedCost cost forbidden window,
        ∃ k ∈ (P.find E cost forbidden window).2, k ≤ m) ∧
      ∀ (r : Restriction) (limits : SearchLimits α),
        ∀ m ∈ (Search.mk E cost forbidden window r.rule limits).run.leastEdgeCost,
          ∃ k ∈ E.leastAdmittedCost cost forbidden window, k ≤ m) ∧
    ∀ round : Round α, round.kind = .reduced → round.IsFinite E.network →
      ∀ (P : PathPricing) (Q : EdgePricing), ∃ b c, (P.price E round).lowerBound = some b ∧
        (Q.price E round).lowerBound = some c ∧ c ≤ b ∧
        (Q.relaxed = false →
          (P.search E (round.kind.cost E.network round.duals) round.forbidden
            round.window).run.exhaustive = false → b = c) := by
  obtain ⟨rfl, _⟩ := Expansion.of_build? hE
  constructor
  · intro cost forbidden window hfin
    refine ⟨fun P hP => P.find_least_of_strict hP, fun P => P.exists_find_le hfin, ?_⟩
    intro r limits
    exact Search.exists_leastAdmittedCost_le ⟨E, cost, forbidden, window, r.rule, limits⟩ hN hfin
  · intro round hk hround P Q
    refine ⟨_, _, by rw [PathPricing.price, hk], by rw [EdgePricing.price, hk],
      hk ▸ hround.bound_le hN P Q, ?_⟩
    intro hQ he
    rw [hk] at he
    rw [PathPricing.bound, he, if_neg Bool.false_ne_true, Q.find_least_of_strict hQ]

/-- Two labels meet on the triangle, of which a search for one label keeps the cheaper one only. -/
theorem least_costs_agree_triangle :
    let E := Network.triangle.expand
    let P : PathPricing := { restriction := .holeFree, labelLimit := 1 }
    let Q : EdgePricing := {}
    let cost := CostKind.reduced.cost E.network Round.triangle.duals
    Expansion.build? Network.triangle 10 = some E ∧
      (P.search E cost [3] ⟨some 3, some 4⟩).run.exhaustive = false ∧
      (Q.find E cost [3] ⟨some 3, some 4⟩).2 = some (-1) ∧
      (∃ k ∈ ({ Q with relaxed := true }.find E cost [3] ⟨some 3, some 4⟩).2, k ≤ -1) ∧
      ∃ b, (P.price E Round.triangle).lowerBound = some b ∧
        (Q.price E Round.triangle).lowerBound = some b := by
  intro E P Q cost
  have h : E.network.WellFormed := Network.wellFormed_of_ofArcs Network.ofArcs_triangle
  have hround : Round.triangle.IsFinite E.network := ⟨E.network.finiteCosts _, rfl, rfl⟩
  have he : (P.search E cost [3] ⟨some 3, some 4⟩).run.exhaustive = false := by decide +kernel
  have hleast : E.leastAdmittedCost cost [3] ⟨some 3, some 4⟩ = some (-1) := by decide +kernel
  obtain ⟨hcosts, hbounds⟩ := least_costs_agree (α := Rat) h build?_triangle
  obtain ⟨hstrict, hany, _⟩ := hcosts cost [3] ⟨some 3, some 4⟩ (E.network.finiteCosts cost)
  obtain ⟨b, c, hb, hc, _, heq⟩ := hbounds Round.triangle rfl hround P Q
  obtain rfl := heq rfl he
  exact ⟨build?_triangle, he, (hstrict Q rfl).trans hleast, hany _ (-1) hleast, b, hb, hc⟩

end TourPricing
