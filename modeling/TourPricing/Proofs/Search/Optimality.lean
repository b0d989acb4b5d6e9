import TourPricing.Proofs.Search.Coverage

namespace TourPricing.Search

variable {S : Search Rat} {legs : List Leg}

theorem run_paths_eq_nil_iff (hmax : 1 ≤ S.limits.maxPaths) :
    S.run.paths = [] ↔ ∀ x ∈ S.explore.closed, ¬ x.cost < S.limits.threshold := by
  rw [run_paths_eq, List.map_eq_nil_iff, List.take_eq_nil_iff, List.eq_nil_iff_forall_not_mem]
  simp only [mem_ranked, not_and]
  exact ⟨fun hnil => hnil.resolve_left (Nat.ne_of_gt hmax), .inr⟩

theorem head_run_paths_le {p : Rat × Route} (hp : p ∈ S.run.paths.head?) {x : Label Rat}
    (hx : x ∈ S.explore.closed) : p.1 ≤ x.cost := by
  have hsorted := S.ranked_sorted
  rw [run_paths_eq, Option.mem_def, List.head?_map] at hp
  obtain ⟨y, hy, rfl⟩ := Option.map_eq_some_iff.1 hp
  have hyr : y ∈ S.ranked := List.mem_of_mem_take (List.mem_of_mem_head? hy)
  by_cases hlt : x.cost < S.limits.threshold
  · have hxr := mem_ranked.2 ⟨hx, hlt⟩
    cases hr : S.ranked with
    | nil =>
      rw [hr] at hxr
      cases hxr
    | cons z rest =>
      rw [hr] at hsorted hxr hy
      have hzy : z = y := by
        cases hm : S.limits.maxPaths with
        | zero =>
          rw [hm] at hy
          cases hy
        | succ m =>
          rw [hm] at hy
          exact Option.some.inj hy
      subst hzy
      rcases List.mem_cons.1 hxr with rfl | hxr
      · exact le_rfl
      · exact of_decide_eq_true ((List.pairwise_cons.1 hsorted).1 x hxr)
  · exact ((mem_ranked.1 hyr).2.trans_le (not_lt.1 hlt)).le

theorem exists_closed_le (h : S.expansion.network.WellFormed)
    (hd : S.rule.IsDominance S.expansion.network.dimension) (he : S.run.exhaustive = true)
    (hc : S.ClosedWalk legs) :
    ∃ x ∈ S.explore.closed, x.cost ≤ (Route.mk legs).cost S.cost := by
  obtain ⟨s, w, ht⟩ := hc
  exact (settled_of_exhaustive h (Network.finiteCosts _ _) hd he w).closed ht

/-- An exhaustive search under a rule whose dominance is sound returns no path exactly if no closed
walk is cheaper than the threshold; otherwise its first path is a closed walk of least cost. The
restrictions are such rules. -/
theorem run_optimal_of_exhaustive {name : String} {dimension source : Nat} {arcs : List Arc}
    {limit : Option Nat} (S : Search Rat)
    (hN : Network.ofArcs name dimension source arcs limit = .ok S.expansion.network)
    (hmax : 1 ≤ S.limits.maxPaths) (hd : S.rule.IsDominance S.expansion.network.dimension)
    (he : S.run.exhaustive = true) :
    (S.run.paths = [] ↔
      ¬ ∃ legs, S.ClosedWalk legs ∧ (Route.mk legs).cost S.cost < S.limits.threshold) ∧
    (∀ p ∈ S.run.paths.head?,
      (∃ legs, S.ClosedWalk legs ∧ p = ((Route.mk legs).cost S.cost, ⟨legs⟩)) ∧
      ∀ legs, S.ClosedWalk legs → p.1 ≤ (Route.mk legs).cost S.cost) ∧
    ∀ r : Restriction, r.rule.IsDominance S.expansion.network.dimension := by
  have h := Network.wellFormed_of_ofArcs hN
  refine ⟨?_, fun p hp => ⟨?_, fun legs hc => ?_⟩, fun r => r.isDominance _⟩
  · rw [run_paths_eq_nil_iff hmax]
    constructor
    · rintro hno ⟨legs, hc, hlt⟩
      obtain ⟨x, hx, hle⟩ := exists_closed_le h hd he hc
      exact hno x hx (hle.trans_lt hlt)
    · intro hno x hx hlt
      obtain ⟨legs, hc, rfl⟩ := closedWalk_of_mem_closed h hx
      exact hno ⟨legs, hc, hlt⟩
  · obtain ⟨legs, hc, hp, _⟩ := closedWalk_of_mem_run_paths h (List.mem_of_mem_head? hp)
    exact ⟨legs, hc, hp⟩
  · obtain ⟨x, hx, hle⟩ := exists_closed_le h hd he hc
    exact (head_run_paths_le hp hx).trans hle

theorem run_optimal_triangle :
    triangle.run.exhaustive = true ∧ ∃ p, triangle.run.paths.head? = some p ∧
      ∀ legs, triangle.ClosedWalk legs → p.1 ≤ (Route.mk legs).cost triangle.cost := by
  have he : triangle.run.exhaustive = true := by decide +kernel
  have hlen : triangle.run.paths.length = 2 := by
    rw [run_paths_length]
    decide +kernel
  obtain ⟨_, hleast, _⟩ := run_optimal_of_exhaustive triangle Network.ofArcs_triangle (by decide)
    (Restriction.isDominance _ _) he
  cases hpaths : triangle.run.paths with
  | nil =>
    rw [hpaths] at hlen
    cases hlen
  | cons p rest =>
    rw [hpaths] at hleast
    exact ⟨he, p, rfl, (hleast p rfl).2⟩

end TourPricing.Search
