import TourPricing.Proofs.Clock
import TourPricing.Proofs.Search.Soundness

namespace TourPricing

variable {E : Expansion} {T : Route} {leg : Leg}

theorem Route.visitsOnce?_eq_some_true {n : Nat} {seen visits : List Nat}
    (h : Route.visitsOnce? n seen visits = some true) :
    visits.Nodup ∧ ∀ v ∈ visits, v ∉ seen := by
  induction visits generalizing seen with
  | nil => exact ⟨.nil, fun v hv => nomatch hv⟩
  | cons v rest ih =>
    rw [Route.visitsOnce?] at h
    split at h
    · cases h
    · split at h
      · cases h
      · rename_i hseen
        obtain ⟨hnodup, hnew⟩ := ih h
        refine ⟨List.nodup_cons.2 ⟨fun hv => hnew v hv List.mem_cons_self, hnodup⟩, fun w hw => ?_⟩
        rcases List.mem_cons.1 hw with rfl | hw
        · exact fun hs => hseen (List.contains_iff_mem.2 hs)
        · exact fun hs => hnew w hw (List.mem_cons_of_mem _ hs)

theorem Route.isTour?_eq_some_true {N : Network} (h : T.isTour? N = some true) :
    (T.legs.length = N.dimension ∧ T.isConnected = true ∧
      (T.legs.head?).map (·.tail) = some N.start ∧
      (T.legs.getLast?).map (·.head.vertex) = some N.source) ∧
    (T.legs.map (·.head.vertex)).Nodup := by
  rw [Route.isTour?] at h
  split at h
  · rename_i hcond
    exact ⟨hcond, (Route.visitsOnce?_eq_some_true h).1⟩
  · cases h

/-- A tour of the network along legs of the expansion. -/
structure Expansion.IsTour (E : Expansion) (T : Route) : Prop where
  tour : T.isTour E.network = true
  outgoing : ∀ leg ∈ T.legs, leg ∈ E.outgoing leg.tail

structure Route.Permitted (T : Route) (source : Nat) (forbidden : List Nat) (window : TimeWindow) :
    Prop where
  free : ∀ leg ∈ T.legs, leg.edge ∉ forbidden
  admitted : ∀ leg ∈ T.legs, window.admits source leg.head = true

namespace Expansion.IsTour

theorem spec (h : E.IsTour T) : (T.legs.length = E.network.dimension ∧ T.isConnected = true ∧
      (T.legs.head?).map (·.tail) = some E.network.start ∧
      (T.legs.getLast?).map (·.head.vertex) = some E.network.source) ∧
    (T.legs.map (·.head.vertex)).Nodup :=
  Route.isTour?_eq_some_true (beq_iff_eq.1 h.tour)

theorem length_eq (h : E.IsTour T) : T.legs.length = E.network.dimension :=
  h.spec.1.1

theorem tail_of_head? (h : E.IsTour T) : ∀ leg ∈ T.legs.head?, leg.tail = E.network.start := by
  intro leg hl
  have hstart := h.spec.1.2.2.1
  rw [Option.mem_def] at hl
  rw [hl, Option.map_some, Option.some.injEq] at hstart
  exact hstart

theorem exists_walk (h : E.IsTour T) (may : List Leg → Leg → Prop)
    (hmay : ∀ before leg after, T.legs = before ++ leg :: after → may before leg) :
    ∃ s, E.Walk may T.legs s :=
  Walk.of_chain (Route.isConnected_iff.1 h.spec.1.2.1) h.tail_of_head? h.outgoing hmay

theorem tail_mem_stops (h : E.IsTour T) (hN : E.network.WellFormed) (hl : leg ∈ T.legs) :
    leg.tail ∈ E.stops := by
  obtain ⟨before, after, hlegs⟩ := List.append_of_mem hl
  obtain ⟨s, w⟩ := h.exists_walk (fun _ _ => True) fun _ _ _ _ => trivial
  rw [hlegs] at w
  obtain ⟨t, wt, ho, _⟩ := w.split
  rw [hN.tail_eq ho]
  exact wt.mem_stops hN

/-- A search under a restriction may take every tour that its forbidden edges and its window
permit. -/
theorem search_walk {α : Type} {S : Search α} {r : Restriction} (h : S.expansion.IsTour T)
    (hr : S.rule = r.rule)
    (hp : T.Permitted S.expansion.network.source S.forbidden S.window) :
    ∃ s, S.Walk T.legs s := by
  apply h.exists_walk S.MayTake
  intro before leg after hlegs
  constructor
  · have hl : leg ∈ T.legs := hlegs ▸ List.mem_append_right _ List.mem_cons_self
    exact Search.allows_iff.2 ⟨hp.free leg hl, hp.admitted leg hl⟩
  · by_cases hv : leg.head.vertex = S.expansion.network.source
    · exact .inl hv
    · have hnodup := h.spec.2
      rw [hlegs, List.map_append, List.map_cons] at hnodup
      have hnew : leg.head.vertex ∉ S.expansion.network.visits before := by
        intro hm
        rcases List.mem_cons.1 hm with hm | hm
        · exact hv hm
        · exact (List.nodup_append.1 hnodup).2.2 _ hm _ List.mem_cons_self rfl
      rw [Search.trailAfter, hr]
      exact .inr (r.admits_of_not_mem _ hnew)

end Expansion.IsTour

def Route.triangle : Route :=
  ⟨[⟨0, ⟨0, 0⟩, ⟨1, 1⟩⟩, ⟨1, ⟨1, 1⟩, ⟨2, 2⟩⟩, ⟨2, ⟨2, 2⟩, ⟨0, 3⟩⟩]⟩

theorem build?_triangle :
    Expansion.build? Network.triangle 10 = some Network.triangle.expand :=
  Expansion.build?_of_all (by decide +kernel)

theorem isTour_triangle : Network.triangle.expand.IsTour Route.triangle :=
  ⟨by decide, by decide⟩

end TourPricing
