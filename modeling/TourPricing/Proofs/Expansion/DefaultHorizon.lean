import Mathlib.Algebra.Order.BigOperators.Group.List
import TourPricing.Proofs.Expansion.Feasibility

namespace TourPricing

variable {N : Network} {E : Expansion} {e : Edge} {edges : List Edge} {legs : List Leg} {s : Stop}
  {vertices : List Nat}

theorem total_eq_sum (l : List Nat) : total l = l.sum := rfl

theorem total_map_le_total_map {β : Type} {l : List β} {f g : β → Nat}
    (h : ∀ b ∈ l, f b ≤ g b) : total (l.map f) ≤ total (l.map g) := by
  rw [total_eq_sum, total_eq_sum]
  exact List.sum_le_sum h

theorem total_map_le_of_nodup {l : List Nat} {n : Nat} (h : l.Nodup) (hlt : ∀ v ∈ l, v < n)
    (f : Nat → Nat) : total (l.map f) ≤ total ((List.range n).map f) := by
  obtain ⟨m, hperm, hsub⟩ := subperm_range_of_nodup h hlt
  rw [total_eq_sum, total_eq_sum, ← (hperm.map f).sum_eq]
  exact (hsub.map f).sum_le_sum fun _ _ => Nat.zero_le _

theorem le_slowest (h : e ∈ edges) : e.travelTime ≤ slowest edges := by
  have hmem : e.travelTime ∈ edges.map (·.travelTime) := List.mem_map_of_mem h
  obtain ⟨t, ht⟩ := Option.isSome_iff_exists.1 (List.isSome_max?_of_mem hmem)
  rw [slowest, ht]
  exact List.max?_le_iff ht |>.1 (le_refl t) _ hmem

namespace Network

/-- Edges of a network of which no two leave the same vertex. -/
structure LeavesOnce (N : Network) (edges : List Edge) : Prop where
  mem : ∀ e ∈ edges, e ∈ N.edges
  nodup : (edges.map (·.source)).Nodup

/-- Whether or not they follow one another, edges that leave no vertex twice take no longer than the
default horizon. -/
theorem LeavesOnce.total_le (h : N.LeavesOnce edges) (hN : N.WellFormed) :
    total (edges.map (·.travelTime)) ≤ N.defaultHorizon := by
  have hlt : ∀ v ∈ edges.map (·.source), v < N.dimension := by
    intro v hv
    obtain ⟨e, he, rfl⟩ := List.mem_map.1 hv
    exact (hN.edge_ok e (h.mem e he)).1
  have hslowest : ∀ e ∈ edges, e.travelTime ≤ slowest (N.outEdges e.source) :=
    fun e he => le_slowest (hN.mem_outEdges.2 ⟨h.mem e he, rfl⟩)
  calc total (edges.map (·.travelTime))
    _ ≤ total (edges.map fun e => slowest (N.outEdges e.source)) := total_map_le_total_map hslowest
    _ = total ((edges.map (·.source)).map fun v => slowest (N.outEdges v)) := by
      rw [List.map_map]
      rfl
    _ ≤ N.defaultHorizon := total_map_le_of_nodup h.nodup hlt _

theorem leavesOnce_of_tourEdges (hN : N.WellFormed) (h : N.tourEdges vertices = .ok edges)
    (hnodup : vertices.Nodup) : N.LeavesOnce edges := by
  obtain ⟨rest, rfl, hcircuit⟩ := exists_circuit hN h
  exact ⟨hcircuit.mem, hcircuit.sources ▸ hnodup⟩

theorem duration_le_defaultHorizon (hN : N.WellFormed) (hnodup : vertices.Nodup)
    (algorithm : String) : (Tour.evaluate N vertices algorithm).duration ≤ N.defaultHorizon := by
  cases hedges : N.tourEdges vertices with
  | error reason =>
    rw [Tour.evaluate, hedges]
    exact Nat.zero_le _
  | ok edges =>
    rw [Tour.evaluate_eq hedges]
    exact (leavesOnce_of_tourEdges hN hedges hnodup).total_le hN

end Network

namespace Expansion

/-- The edges that a walk takes: they leave the vertices that it visits before the last one, and
their travel times make up the time of its last stop. -/
theorem Walk.exists_edges {may : List Leg → Leg → Prop} (hN : E.network.WellFormed)
    (w : E.Walk may legs s) : ∃ edges : List Edge, (∀ e ∈ edges, e ∈ E.network.edges) ∧
      edges.map (·.source) ++ [s.vertex] = E.network.visits legs ∧
      total (edges.map (·.travelTime)) = s.time := by
  induction w with
  | start => exact ⟨[], fun _ he => absurd he List.not_mem_nil, rfl, rfl⟩
  | @step legs s leg _ hl _ ih =>
    obtain ⟨edges, hmem, hvisits, htime⟩ := ih
    obtain ⟨_, e, he, hsource, rfl, _⟩ := hN.mem_legsFrom.1 hl
    refine ⟨edges ++ [e], ?_, ?_, ?_⟩
    · intro f hf
      rcases List.mem_append.1 hf with hf | hf
      · exact hmem f hf
      · exact List.mem_singleton.1 hf ▸ he
    · rw [Network.visits_snoc, ← hvisits, List.map_append, List.map_singleton, hsource]
    · rw [List.map_append, total_append, htime]
      rfl

/-- Whatever edge a walk takes next from its last stop arrives by the default horizon, if the walk
has visited no vertex twice. -/
theorem Walk.arrival_le_defaultHorizon {may : List Leg → Leg → Prop} (hN : E.network.WellFormed)
    (w : E.Walk may legs s) (hnodup : (E.network.visits legs).Nodup)
    (he : e ∈ E.network.outEdges s.vertex) :
    s.time + e.travelTime ≤ E.network.defaultHorizon := by
  obtain ⟨edges, hmem, hvisits, htime⟩ := w.exists_edges hN
  obtain ⟨he, hsource⟩ := hN.mem_outEdges.1 he
  have honce : E.network.LeavesOnce (edges ++ [e]) := by
    constructor
    case mem =>
      intro f hf
      rcases List.mem_append.1 hf with hf | hf
      · exact hmem f hf
      · exact List.mem_singleton.1 hf ▸ he
    case nodup =>
      rw [List.map_append, List.map_singleton, hsource, hvisits]
      exact hnodup
  have hle := honce.total_le hN
  rw [List.map_append, total_append, htime] at hle
  exact hle

end Expansion

end TourPricing
