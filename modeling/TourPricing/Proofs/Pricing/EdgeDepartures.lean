import Mathlib.Data.Set.Card
import TourPricing.Proofs.Expansion.Reachability
import TourPricing.Proofs.Pricing.TourBound
import TourPricing.Proofs.Search.LeastCost

namespace TourPricing

variable {E : Expansion} {window : TimeWindow} {e : Edge} {leg : Leg} {t : Nat}

namespace EdgePricing

variable {P : EdgePricing}

/-- Edge pricing admits the departure of an edge at a time: the edge can be reached then and leads
to its end by the horizon, not after the upper limit of the window unless this is dropped, and not
back to the source before the lower limit. -/
structure Admits (P : EdgePricing) (E : Expansion) (window : TimeWindow) (e : Edge) (t : Nat) :
    Prop where
  reached : E.network.Reaches ⟨e.source, t⟩
  leaves_once : e.source = E.network.source → t = 0
  by_horizon : t + e.travelTime ≤ E.horizon
  not_late : P.relaxed = false → ∀ upper ∈ window.upper, t + e.travelTime ≤ upper
  not_early : e.target = E.network.source → ∀ lower ∈ window.lower, lower ≤ t + e.travelTime

theorem admits_effective_iff {source : Nat} {s : Stop} :
    (P.effective window).admits source s = true ↔
      (P.relaxed = false → ∀ upper ∈ window.upper, s.time ≤ upper) ∧
        (s.vertex = source → ∀ lower ∈ window.lower, lower ≤ s.time) := by
  have hlower : (s.vertex != source || window.lower.all (· ≤ s.time)) = true ↔
      (s.vertex = source → ∀ lower ∈ window.lower, lower ≤ s.time) := by
    simp [Option.all_eq_true, imp_iff_not_or]
  cases hr : P.relaxed with
  | true => simp [effective, hr, TimeWindow.admits, hlower]
  | false => simp [effective, hr, TimeWindow.admits, hlower, Option.all_eq_true]

def times (P : EdgePricing) (E : Expansion) (window : TimeWindow) (e : Edge) : List Nat :=
  (E.departures e.source).filter fun t => (e.departAt t).head.time ≤ E.horizon &&
    (P.effective window).admits E.network.source (e.departAt t).head

theorem admitted_eq (P : EdgePricing) (E : Expansion) (window : TimeWindow) (e : Edge) :
    P.admitted E window e = (P.times E window e).map e.departAt := by
  rw [admitted, Expansion.departuresOf, List.filter_map, List.filter_map, List.filter_filter, times]
  congr 1
  apply List.filter_congr
  intro t _
  exact Bool.and_comm _ _

section

variable (h : E.network.WellFormed)

include h

theorem mem_times_iff : t ∈ P.times E window e ↔ P.Admits E window e t := by
  rw [times, List.mem_filter, Expansion.mem_departures h, Bool.and_eq_true, decide_eq_true_eq,
    admits_effective_iff]
  constructor
  · rintro ⟨⟨_, hreached, hsource⟩, harrives, hlate, hearly⟩
    exact ⟨hreached, hsource, harrives, hlate, hearly⟩
  · intro ht
    exact ⟨⟨(Nat.le_add_right _ _).trans ht.by_horizon, ht.reached, ht.leaves_once⟩, ht.by_horizon,
      ht.not_late, ht.not_early⟩

theorem times_ascending : (P.times E window e).Pairwise (· < ·) :=
  (Expansion.departures_sorted h e.source).filter _

theorem mem_take_times_iff {n : Nat} : t ∈ (P.times E window e).take n ↔
    P.Admits E window e t ∧ {u | u < t ∧ P.Admits E window e u}.encard < n := by
  have hset : {u | u < t ∧ P.Admits E window e u} =
      (((P.times E window e).filter (· < t)).toFinset : Set Nat) := by
    ext u
    simp [mem_times_iff h, and_comm]
  have hnodup : ((P.times E window e).filter (· < t)).Nodup :=
    ((times_ascending h).imp Nat.ne_of_lt).filter _
  rw [mem_take_iff_of_ascending (times_ascending h), mem_times_iff h, hset,
    Set.encard_coe_eq_coe_finsetCard, List.toFinset_card_of_nodup hnodup, Nat.cast_lt]

theorem admitted_ne_nil_iff :
    (!(P.admitted E window e).isEmpty) = true ↔ ∃ t, P.Admits E window e t := by
  rw [Bool.not_eq_true', List.isEmpty_eq_false_iff_exists_mem, admitted_eq]
  simp [mem_times_iff h]

variable {α : Type} [Scalar α] (cost : Nat → α) (forbidden : List Nat)

theorem mem_find_iff : leg ∈ (P.find E cost forbidden window).1 ↔
    ∃ e ∈ E.network.edges, ∃ t, e.departAt t = leg ∧ e.id ∉ forbidden ∧
      cost e.id < -(Scalar.costTolerance : α) ∧ P.Admits E window e t ∧
      {u | u < t ∧ P.Admits E window e u}.encard < P.perEdge := by
  simp only [find, List.mem_flatMap, List.mem_filter, Array.mem_toList_iff, Bool.and_eq_true,
    decide_eq_true_eq, Bool.not_eq_true', ← Bool.not_eq_true, List.contains_iff_mem]
  constructor
  · rintro ⟨e, ⟨⟨he, hfree, _⟩, hcost⟩, hl⟩
    rw [admitted_eq, ← List.map_take] at hl
    obtain ⟨t, ht, rfl⟩ := List.mem_map.1 hl
    exact ⟨e, he, t, rfl, hfree, hcost, (mem_take_times_iff h).1 ht⟩
  · rintro ⟨e, he, t, rfl, hfree, hcost, hadmits, hfirst⟩
    have ht := (mem_take_times_iff h).2 ⟨hadmits, hfirst⟩
    have hsome := (admitted_ne_nil_iff h).2 ⟨t, hadmits⟩
    rw [Bool.not_eq_true', ← Bool.not_eq_true] at hsome
    refine ⟨e, ⟨⟨he, hfree, hsome⟩, hcost⟩, ?_⟩
    rw [admitted_eq, ← List.map_take]
    exact List.mem_map_of_mem ht

theorem find_ascending : (P.find E cost forbidden window).1.Pairwise
    fun a b => a.edge < b.edge ∨ a.edge = b.edge ∧ a.tail.time < b.tail.time := by
  simp only [find, admitted_eq, ← List.map_take]
  rw [List.pairwise_flatMap]
  constructor
  · intro e _
    apply List.pairwise_map.2
    apply ((times_ascending h).sublist (List.take_sublist _ _)).imp
    intro t u htu
    exact .inr ⟨rfl, htu⟩
  · apply ((E.network.edges_sorted.filter _).filter _).imp
    intro e f hef a ha b hb
    obtain ⟨t, _, rfl⟩ := List.mem_map.1 ha
    obtain ⟨u, _, rfl⟩ := List.mem_map.1 hb
    exact .inl hef

theorem isLeastOf_find [LawfulScalar α] (hfin : E.network.FiniteCosts cost) :
    Scalar.IsLeastOf {c | ∃ e ∈ E.network.edges,
      e.id ∉ forbidden ∧ (∃ t, P.Admits E window e t) ∧ cost e.id = c}
      (P.find E cost forbidden window).2 := by
  have hleast := E.network.isLeastOf_costs hfin fun e =>
    !forbidden.contains e.id && !(P.admitted E window e).isEmpty
  simp only [Bool.and_eq_true, admitted_ne_nil_iff h, Bool.not_eq_true', ← Bool.not_eq_true,
    List.contains_iff_mem, and_assoc] at hleast
  exact hleast

end

/-- On an expansion that can be built, edge pricing returns exactly the first departures that it
admits of the free edges of negative cost, as many of each edge as are wanted, in the order of the
edges and of time, and none twice. With them it returns the least cost of all free edges of which it
admits a departure, negative or not, and no least cost if there is no such edge. -/
theorem find_exact {α : Type} [Scalar α] [LawfulScalar α] (P : EdgePricing) {N : Network}
    {horizon : Nat} (hN : N.WellFormed) (hE : Expansion.build? N horizon = some E)
    (cost : Nat → α) (hfin : N.FiniteCosts cost) (forbidden : List Nat) (window : TimeWindow) :
    ((P.find E cost forbidden window).1.Pairwise
      fun a b => a.edge < b.edge ∨ a.edge = b.edge ∧ a.tail.time < b.tail.time) ∧
    (∀ leg, leg ∈ (P.find E cost forbidden window).1 ↔
      ∃ e ∈ E.network.edges, ∃ t, e.departAt t = leg ∧ e.id ∉ forbidden ∧
        cost e.id < -(Scalar.costTolerance : α) ∧ P.Admits E window e t ∧
        {u | u < t ∧ P.Admits E window e u}.encard < P.perEdge) ∧
    Scalar.IsLeastOf {c | ∃ e ∈ E.network.edges,
      e.id ∉ forbidden ∧ (∃ t, P.Admits E window e t) ∧ cost e.id = c}
      (P.find E cost forbidden window).2 ∧
    ((P.find E cost forbidden window).2 = none ↔
      ¬ ∃ e ∈ E.network.edges, e.id ∉ forbidden ∧ ∃ t, P.Admits E window e t) := by
  obtain ⟨rfl, _⟩ := Expansion.of_build? hE
  have hleast : Scalar.IsLeastOf _ (P.find E cost forbidden window).2 :=
    isLeastOf_find hN cost forbidden hfin
  refine ⟨find_ascending hN cost forbidden, fun leg => mem_find_iff hN cost forbidden, hleast,
    hleast.eq_none_iff.trans ?_⟩
  constructor
  · rintro hnone ⟨e, he, hfree, hadmits⟩
    exact hnone _ ⟨e, he, hfree, hadmits, rfl⟩
  · rintro hnone c ⟨e, he, hfree, hadmits, _⟩
    exact hnone ⟨e, he, hfree, hadmits⟩

theorem build?_shuttle : Expansion.build? Network.shuttle 10 = some Network.shuttle.expand :=
  Expansion.build?_of_all (by decide +kernel)

theorem find_exact_shuttle :
    let P : EdgePricing := { perEdge := 2 }
    let E := Network.shuttle.expand
    let window : TimeWindow := ⟨some 5, some 7⟩
    let cost : Nat → Rat := fun e => [-9, -1, 3, -2].getD e 0
    Expansion.build? Network.shuttle 10 = some E ∧
    P.find E cost [0] window = ([⟨1, ⟨1, 1⟩, ⟨2, 2⟩⟩, ⟨1, ⟨1, 3⟩, ⟨2, 4⟩⟩, ⟨3, ⟨2, 4⟩, ⟨0, 5⟩⟩,
      ⟨3, ⟨2, 6⟩, ⟨0, 7⟩⟩], some (-2)) ∧
    (∀ leg, leg ∈ (P.find E cost [0] window).1 ↔ ∃ e ∈ E.network.edges, ∃ t, e.departAt t = leg ∧
      e.id ∉ [0] ∧ cost e.id < -Scalar.costTolerance ∧ P.Admits E window e t ∧
      {u | u < t ∧ P.Admits E window e u}.encard < P.perEdge) ∧
    IsLeast {c | ∃ e ∈ E.network.edges, e.id ∉ [0] ∧ (∃ t, P.Admits E window e t) ∧ cost e.id = c}
      (-2) := by
  intro P E window cost
  have h : E.network.WellFormed := Network.wellFormed_of_ofArcs Network.ofArcs_shuttle
  have hfind : P.find E cost [0] window = ([⟨1, ⟨1, 1⟩, ⟨2, 2⟩⟩, ⟨1, ⟨1, 3⟩, ⟨2, 4⟩⟩,
      ⟨3, ⟨2, 4⟩, ⟨0, 5⟩⟩, ⟨3, ⟨2, 6⟩, ⟨0, 7⟩⟩], some (-2)) := by
    decide +kernel
  obtain ⟨_, hmem, hleast, _⟩ := 
    find_exact P h build?_shuttle cost (E.network.finiteCosts cost) [0] window
  rw [hfind] at hleast
  exact ⟨build?_shuttle, hfind, hmem, hleast⟩

end EdgePricing

end TourPricing
