import TourPricing.Manager.Basic
import TourPricing.Proofs.Lists
import TourPricing.Proofs.Search.Soundness

namespace TourPricing

variable {N : Network} {E : Expansion} {leg : Leg}

namespace Network

def IsDeparture (N : Network) (leg : Leg) : Prop :=
  ∃ e ∈ N.edges, e.departAt leg.tail.time = leg

/-- A departure whose arrival is a time. -/
def IsTimely (N : Network) (leg : Leg) : Prop :=
  N.IsDeparture leg ∧ leg.head.time < timeLimit

theorem IsDeparture.of_departAt {e : Edge} {t : Nat} (he : e ∈ N.edges) :
    N.IsDeparture (e.departAt t) :=
  ⟨e, he, rfl⟩

theorem IsDeparture.exists_edge (h : N.IsDeparture leg) :
    ∃ e, N.edge? leg.edge = some e ∧ leg.head.vertex = e.target := by
  obtain ⟨e, he, hleg⟩ := h
  exact ⟨e, hleg ▸ N.edge?_of_mem he, hleg ▸ rfl⟩

theorem IsDeparture.edge_lt (h : N.IsDeparture leg) : leg.edge < N.edgeCount := by
  obtain ⟨e, he, _⟩ := h.exists_edge
  exact (Array.getElem?_eq_some_iff.1 he).1

theorem IsDeparture.time_le (h : N.IsDeparture leg) : leg.tail.time ≤ leg.head.time := by
  obtain ⟨e, _, hleg⟩ := h
  have hhead : leg.head.time = leg.tail.time + e.travelTime :=
    congrArg (fun l : Leg => l.head.time) hleg.symm
  exact hhead ▸ Nat.le_add_right _ _

theorem mem_edges_of_edge? {n : Nat} {e : Edge} (h : N.edge? n = some e) : e ∈ N.edges :=
  Array.mem_of_getElem? h

theorem departs_of_mem_legsFrom {horizon : Nat} {s : Stop} (h : leg ∈ N.legsFrom horizon s) :
    N.IsDeparture leg ∧ leg.head.time ≤ horizon := by
  rw [legsFrom] at h
  split at h
  · exact absurd h List.not_mem_nil
  · obtain ⟨hleg, hle⟩ := List.mem_filter.1 h
    obtain ⟨e, he, rfl⟩ := List.mem_map.1 hleg
    obtain ⟨n, _, hn⟩ := List.mem_filterMap.1 he
    exact ⟨.of_departAt (mem_edges_of_edge? hn), of_decide_eq_true hle⟩

end Network

/-- A departure of an edge that arrives by the horizon, whether or not it can be reached. -/
def Expansion.Departs (E : Expansion) (leg : Leg) : Prop :=
  E.network.IsDeparture leg ∧ leg.head.time ≤ E.horizon

theorem Expansion.departs_of_mem_departuresOf {e : Edge} (he : e ∈ E.network.edges)
    (h : leg ∈ E.departuresOf e) : E.Departs leg := by
  obtain ⟨hleg, hle⟩ := List.mem_filter.1 h
  obtain ⟨t, _, rfl⟩ := List.mem_map.1 hleg
  exact ⟨.of_departAt he, of_decide_eq_true hle⟩

theorem Frontier.exists_of_sweep {β σ : Type} {I : Frontier β → σ → Prop}
    (settle : Stop → β → Frontier β → σ → Frontier β × σ)
    (step : ∀ s b rest acc, I ⟨(s, b) :: rest⟩ acc →
      I (settle s b ⟨rest⟩ acc).1 (settle s b ⟨rest⟩ acc).2)
    (limit : Nat) {F : Frontier β} {acc : σ} (h : I F acc) :
    ∃ F', I F' (sweep settle limit F acc) := by
  induction limit generalizing F acc with
  | zero => exact ⟨F, h⟩
  | succ limit ih =>
    obtain ⟨_ | ⟨⟨s, b⟩, rest⟩⟩ := F
    · exact ⟨_, h⟩
    · exact ih (step s b rest acc h)

section

variable {α : Type} [Scalar α] {round : Round α} {result : PricingResult α}

theorem Search.departs_of_mem_run_paths {S : Search α} {p : α × Route} (hp : p ∈ S.run.paths) :
    ∀ leg ∈ p.2.legs, S.expansion.Departs leg := by
  obtain ⟨F, htracks⟩ := Frontier.exists_of_sweep (I := fun F progress => S.Tracks (F, progress))
    S.settle (fun s labels rest progress h => h.settle)
    (S.expansion.network.sweepLimit S.expansion.horizon) S.tracks_start
  rw [run_paths_eq] at hp
  obtain ⟨x, hx, rfl⟩ := List.mem_map.1 hp
  obtain ⟨legs, s, w, _, rfl⟩ := htracks.closed x (mem_ranked.1 (List.mem_of_mem_take hx)).1
  intro leg hl
  rw [Label.route, labelOf, List.reverse_reverse] at hl
  obtain ⟨before, after, rfl⟩ := List.append_of_mem hl
  obtain ⟨t, _, ho, _⟩ := w.split
  exact Network.departs_of_mem_legsFrom ho

/-- A result of pricing all of whose legs are permitted, also on its routes. -/
structure PricingResult.Uses (result : PricingResult α) (permitted : Leg → Prop) : Prop where
  legs : ∀ leg ∈ result.legs, permitted leg
  routes : ∀ r ∈ result.routes, ∀ leg ∈ r.legs, permitted leg

omit [Scalar α] in
theorem PricingResult.Uses.mono {permitted permitted' : Leg → Prop} (h : result.Uses permitted)
    (hsub : ∀ leg, permitted leg → permitted' leg) : result.Uses permitted' :=
  ⟨fun leg hl => hsub leg (h.legs leg hl), fun r hr leg hl => hsub leg (h.routes r hr leg hl)⟩

section

variable {permitted : Leg → Prop} {P : PathPricing}
  (hsearch : ∀ S : Search α, S.expansion = E → ∀ p ∈ S.run.paths, ∀ leg ∈ p.2.legs, permitted leg)

include hsearch

theorem PricingResult.Uses.of_search {S : Search α} (hS : S.expansion = E)
    (hlegs : result.legs = []) (hroutes : result.routes ⊆ S.run.paths.map (·.2)) :
    result.Uses permitted := by
  constructor
  · intro leg hl
    rw [hlegs] at hl
    exact nomatch hl
  · intro r hr
    obtain ⟨p, hp, rfl⟩ := List.mem_map.1 (hroutes hr)
    exact hsearch S hS p hp

theorem PathPricing.uses_price : (P.price E round).Uses permitted :=
  .of_search hsearch (S := P.search E _ round.forbidden round.window) rfl rfl (List.Subset.refl _)

namespace Smoothing

variable {C : Smoothing α} {state : SmoothingState α}

theorem uses_priceTrue (h : (C.priceTrue P E round state).1 = .ok result) :
    result.Uses permitted := by
  rw [priceTrue] at h
  dsimp only at h
  split at h
  · cases h
  · obtain rfl := Except.ok.inj h
    exact .of_search hsearch (S := P.search E _ round.forbidden round.window) rfl rfl
      (List.Subset.refl _)

theorem uses_priceCentered {center : StabilityCenter α}
    (h : (C.priceCentered P E round state center).1 = .ok result) : result.Uses permitted := by
  rw [priceCentered] at h
  dsimp only at h
  split at h
  · cases h
  · split at h
    · cases hfall : (C.priceTrue P E round (C.misprice (state.moveCenter _ _ _))).1 with
      | error e =>
        rw [hfall] at h
        cases h
      | ok fallback =>
        rw [hfall] at h
        obtain rfl := Except.ok.inj h
        have huses := uses_priceTrue hsearch hfall
        exact ⟨huses.legs, huses.routes⟩
    · obtain rfl := Except.ok.inj h
      exact .of_search hsearch (S := P.search E _ round.forbidden round.window) rfl rfl
        fun r hr => (List.mem_filter.1 hr).1

theorem uses_price (h : (C.price P E round state).1 = .ok result) : result.Uses permitted := by
  rw [price] at h
  dsimp only at h
  split at h
  · obtain rfl := Except.ok.inj h
    exact PathPricing.uses_price hsearch
  · split at h
    · exact uses_priceTrue hsearch h
    · split at h
      · exact uses_priceTrue hsearch h
      · exact uses_priceCentered hsearch h

end Smoothing

omit hsearch in
theorem EdgePricing.uses_price
    (hdepart : ∀ e ∈ E.network.edges, ∀ leg ∈ E.departuresOf e, permitted leg)
    (P : EdgePricing) : (P.price E round).Uses permitted := by
  refine ⟨fun leg hl => ?_, nofun⟩
  obtain ⟨e, he, hl⟩ := List.mem_flatMap.1 hl
  have he := (List.mem_filter.1 (List.mem_filter.1 he).1).1
  exact hdepart e (Array.mem_toList_iff.1 he) leg (List.mem_filter.1 (List.mem_of_mem_take hl)).1

/-- Pricers find nothing but departures of edges and what is on paths that a search returns. -/
theorem Pricer.uses_price {p : Pricer α}
    (hdepart : ∀ e ∈ E.network.edges, ∀ leg ∈ E.departuresOf e, permitted leg)
    (h : (p.price E round).1 = .ok result) : result.Uses permitted := by
  cases p with
  | path P =>
    obtain rfl := Except.ok.inj h
    exact PathPricing.uses_price hsearch
  | edge P =>
    obtain rfl := Except.ok.inj h
    exact P.uses_price hdepart
  | stabilized P C state => exact Smoothing.uses_price hsearch h

end

theorem Pricer.departs_price {p : Pricer α} (h : (p.price E round).1 = .ok result) :
    result.Uses E.Departs := by
  apply Pricer.uses_price _ _ h
  · rintro S rfl p hp
    exact Search.departs_of_mem_run_paths hp
  · intro e he leg hl
    exact Expansion.departs_of_mem_departuresOf he hl

end

namespace Network

theorem mem_edges_of_leadingTo {v : Nat} {numbers : List Nat} {e : Edge}
    (h : N.leadingTo v numbers = .ok (some e)) : e ∈ N.edges := by
  induction numbers with
  | nil => cases h
  | cons n rest ih =>
    rw [leadingTo] at h
    split at h
    · cases h
    · rename_i f hf
      split at h
      · obtain rfl := Option.some.inj (Except.ok.inj h)
        exact mem_edges_of_edge? hf
      · exact ih h

theorem mem_edges_of_edgeTo {u v : Nat} {e : Edge} (h : N.edgeTo u v = .ok e) : e ∈ N.edges := by
  obtain ⟨found, hlead, hfound⟩ := exists_of_bind_ok h
  cases found with
  | none => cases hfound
  | some f =>
    obtain rfl := Except.ok.inj hfound
    exact mem_edges_of_leadingTo hlead

theorem mem_edges_of_tourEdges {vertices : List Nat} {edges : List Edge}
    (h : N.tourEdges vertices = .ok edges) : ∀ e ∈ edges, e ∈ N.edges := by
  rw [tourEdges] at h
  split at h
  · exact forall_right_of_forall₂ (forall₂_of_mapM_ok h) fun _ _ he => mem_edges_of_edgeTo he
  · cases h

end Network

namespace Expansion

theorem exists_of_traceFrom_cons {e : Edge} {rest : List Edge} {t : Nat} {legs : List Leg}
    (h : E.traceFrom t (e :: rest) = .ok legs) :
    ∃ leg others, e.departAt? t = some leg ∧ leg.head.time ≤ E.horizon ∧
      E.traceFrom leg.head.time rest = .ok others ∧ leg :: others = legs := by
  rw [traceFrom] at h
  split at h
  · cases h
  · rename_i leg hleg
    split at h
    · cases h
    · rename_i hle
      obtain ⟨others, hrest, h⟩ := exists_of_bind_ok h
      exact ⟨leg, others, hleg, Nat.not_lt.1 hle, hrest, Except.ok.inj h⟩

theorem isTimely_of_traceFrom {edges : List Edge} (hedges : ∀ e ∈ edges, e ∈ E.network.edges)
    {time : Nat} {legs : List Leg} (h : E.traceFrom time edges = .ok legs) :
    ∀ leg ∈ legs, E.network.IsTimely leg := by
  induction edges generalizing time legs with
  | nil =>
    obtain rfl := Except.ok.inj h
    exact nofun
  | cons e rest ih =>
    obtain ⟨first, others, hfirst, _, hrest, rfl⟩ := exists_of_traceFrom_cons h
    obtain ⟨rfl, hlt⟩ := Edge.departAt?_eq_some_iff.1 hfirst
    intro leg hl
    rcases List.mem_cons.1 hl with rfl | hl
    · exact ⟨.of_departAt (hedges e List.mem_cons_self), hlt⟩
    · exact ih (fun f hf => hedges f (List.mem_cons_of_mem _ hf)) hrest leg hl

theorem isTimely_of_trace {vertices : List Nat} {r : Route} (h : E.trace vertices = .ok r) :
    ∀ leg ∈ r.legs, E.network.IsTimely leg := by
  obtain ⟨edges, hedges, h⟩ := exists_of_bind_ok h
  obtain ⟨legs, hlegs, h⟩ := exists_of_bind_ok h
  obtain rfl := Except.ok.inj h
  exact isTimely_of_traceFrom (Network.mem_edges_of_tourEdges hedges) hlegs

/-- Whatever leg a tour is traced through or a pricer finds is permitted. -/
structure Finds (α : Type) [Scalar α] (E : Expansion) (permitted : Leg → Prop) : Prop where
  traced : ∀ vertices r, E.trace vertices = .ok r → ∀ leg ∈ r.legs, permitted leg
  priced : ∀ (p : Pricer α) round result, (p.price E round).1 = .ok result → result.Uses permitted

theorem Finds.of_departures {α : Type} [Scalar α] {permitted : Leg → Prop}
    (h : ∀ leg, E.network.IsDeparture leg → permitted leg) : E.Finds α permitted where
  traced _ _ hr leg hl := h leg (isTimely_of_trace hr leg hl).1
  priced _ _ _ hresult := (Pricer.departs_price hresult).mono fun leg hleg => h leg hleg.1

/-- With a horizon that is a time, all legs that are found arrive at times. -/
theorem Finds.of_horizon {α : Type} [Scalar α] (h : E.horizon < timeLimit) :
    E.Finds α E.network.IsTimely where
  traced _ _ hr := isTimely_of_trace hr
  priced _ _ _ hresult := (Pricer.departs_price hresult).mono fun _ hleg =>
    ⟨hleg.1, Nat.lt_of_le_of_lt hleg.2 h⟩

end Expansion

end TourPricing
