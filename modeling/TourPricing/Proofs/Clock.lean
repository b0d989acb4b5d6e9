import TourPricing.Expansion
import TourPricing.Proofs.Lists

namespace TourPricing

variable {N : Network} {E : Expansion} {e : Edge} {leg : Leg} {s : Stop} {horizon t : Nat}

theorem Leg.travelTime?_eq_some_iff :
    leg.travelTime? = some t ↔ leg.tail.time ≤ leg.head.time ∧ leg.travelTime = t := by
  rw [travelTime?, Option.ite_none_right_eq_some, Option.some.injEq]

theorem Route.travelTime?_eq_some_iff {r : Route} : r.travelTime? = some t ↔
    (∀ leg ∈ r.legs, leg.tail.time ≤ leg.head.time) ∧ r.travelTime = t ∧ t < timeLimit := by
  have hmapM (times : List Nat) : r.legs.mapM Leg.travelTime? = some times ↔
      (∀ leg ∈ r.legs, leg.tail.time ≤ leg.head.time) ∧ r.legs.map Leg.travelTime = times :=
    mapM_eq_some_iff fun _ _ => Leg.travelTime?_eq_some_iff
  rw [travelTime?, Option.bind_eq_bind, Option.bind_eq_some_iff]
  simp only [hmapM, totalTime?_eq_some_iff]
  constructor
  · rintro ⟨_, ⟨hforward, rfl⟩, htotal⟩
    exact ⟨hforward, htotal⟩
  · rintro ⟨hforward, htotal⟩
    exact ⟨_, ⟨hforward, rfl⟩, htotal⟩

theorem Network.legsFrom?_eq_some_iff {legs : List Leg} : N.legsFrom? horizon s = some legs ↔
    (N.isTerminal s = false → ∀ e ∈ N.outEdges s.vertex, s.time + e.travelTime < timeLimit) ∧
      N.legsFrom horizon s = legs := by
  rw [legsFrom?, legsFrom]
  cases N.isTerminal s with
  | true => simp
  | false =>
    have hdepart (e : Edge) (leg : Leg) : e.departAt? s.time = some leg ↔
        s.time + e.travelTime < timeLimit ∧ e.departAt s.time = leg := by
      rw [Edge.departAt?_eq_some_iff, and_comm]
      exact and_congr_left fun h => h ▸ Iff.rfl
    simp [mapM_eq_some_iff hdepart, and_assoc]

namespace Expansion

theorem ofNetwork?_eq_some_iff : ofNetwork? N horizon = some E ↔
    (∀ s ∈ E.stops, E.isSound s = true) ∧ { network := N, horizon } = E := by
  rw [ofNetwork?, Option.ite_none_right_eq_some, Option.some.injEq, List.all_eq_true]
  exact and_congr_left fun h => h ▸ Iff.rfl

theorem of_ofNetwork? (h : ofNetwork? N horizon = some E) :
    E.network = N ∧ E.horizon = horizon := by
  obtain ⟨_, rfl⟩ := ofNetwork?_eq_some_iff.1 h
  exact ⟨rfl, rfl⟩

theorem outgoing?_eq_some_iff {legs : List Leg} (h : E.isSound s = true) :
    E.outgoing? s = some legs ↔ (E.network.isTerminal s = false →
      ∀ e ∈ E.network.outEdges s.vertex, s.time + e.travelTime < timeLimit) ∧
      E.outgoing s = legs := by
  rw [outgoing?, if_pos h]
  exact Network.legsFrom?_eq_some_iff

/-- An expansion is built if every arrival is a time, by the horizon or later. -/
theorem build?_eq_some_iff : build? N horizon = some E ↔ ofNetwork? N horizon = some E ∧
    ∀ s ∈ E.stops, E.network.isTerminal s = false →
      ∀ e ∈ E.network.outEdges s.vertex, s.time + e.travelTime < timeLimit := by
  rw [build?, Option.filter_eq_some_iff, List.all_eq_true]
  apply and_congr_right
  intro h
  have hsound := (ofNetwork?_eq_some_iff.1 h).1
  apply forall₂_congr
  intro s hs
  rw [Option.isSome_iff_exists]
  simp only [outgoing?_eq_some_iff (hsound s hs), exists_and_left, exists_eq', and_true]

theorem build?_of_all
    (h : ((⟨N, horizon, _, rfl⟩ : Expansion).stops.all fun s =>
      (outgoing? ⟨N, horizon, _, rfl⟩ s).isSome) = true) :
    build? N horizon = some ⟨N, horizon, _, rfl⟩ := by
  have hsound : ∀ s ∈ (⟨N, horizon, _, rfl⟩ : Expansion).stops,
      isSound ⟨N, horizon, _, rfl⟩ s = true := by
    intro s hs
    by_contra hnot
    have hall := List.all_eq_true.1 h s hs
    rw [outgoing?, if_neg hnot] at hall
    cases hall
  rw [build?, ofNetwork?_eq_some_iff.2 ⟨hsound, rfl⟩, Option.filter_some, if_pos h]

theorem of_build? (h : build? N horizon = some E) : E.network = N ∧ E.horizon = horizon :=
  of_ofNetwork? (build?_eq_some_iff.1 h).1

end Expansion

end TourPricing
