import TourPricing.Proofs.Expansion.Feasibility

namespace TourPricing.Network

variable {N : Network} {vertices : List Nat} {edges : List Edge}

def strangers (N : Network) (vertices : List Nat) : List Nat :=
  vertices.filter (N.dimension ≤ ·)

def missed (N : Network) (vertices : List Nat) : List Nat :=
  (List.range N.dimension).filter (· ∉ vertices)

/-- A list starts at the source and has every vertex once, and nothing else. -/
structure VisitsAll (N : Network) (vertices : List Nat) : Prop where
  head : vertices.head? = some N.source
  perm : vertices.Perm (List.range N.dimension)

theorem strangers_eq_nil_iff : N.strangers vertices = [] ↔ ∀ v ∈ vertices, v < N.dimension := by
  rw [strangers, List.filter_eq_nil_iff]
  simp

/-- Different entries make up for the vertices that they leave out by numbers that are none. -/
theorem length_add_missed (h : vertices.Nodup) :
    vertices.length + (N.missed vertices).length =
      N.dimension + (N.strangers vertices).length := by
  have hknown : (vertices.filter fun v => !decide (N.dimension ≤ v)).Perm
      ((List.range N.dimension).filter fun v => !decide (v ∉ vertices)) := by
    rw [List.perm_ext_iff_of_nodup (h.filter _) (List.nodup_range.filter _)]
    intro v
    simp [and_comm]
  have hvertices := List.length_eq_length_filter_add (l := vertices) fun v => N.dimension ≤ v
  have hrange := List.length_eq_length_filter_add (l := List.range N.dimension) (· ∉ vertices)
  rw [List.length_range] at hrange
  rw [hvertices, hknown.length_eq, strangers, missed]
  omega

theorem isComplete_iff_length : N.isComplete vertices = true ↔
    vertices.head? = some N.source ∧ vertices.Nodup ∧
      (N.strangers vertices).length = (N.missed vertices).length := by
  rw [isComplete, decide_eq_true_eq]
  constructor
  · rintro ⟨hlength, hhead, hnodup⟩
    have hcount := length_add_missed (N := N) hnodup
    exact ⟨hhead, hnodup, by omega⟩
  · rintro ⟨hhead, hnodup, heq⟩
    have hcount := length_add_missed (N := N) hnodup
    exact ⟨by omega, hhead, hnodup⟩

theorem visitsAll_iff : N.VisitsAll vertices ↔
    N.isComplete vertices = true ∧ N.strangers vertices = [] := by
  rw [isComplete, decide_eq_true_eq, strangers_eq_nil_iff]
  constructor
  · rintro ⟨hhead, hperm⟩
    refine ⟨⟨?_, hhead, hperm.nodup_iff.2 List.nodup_range⟩, ?_⟩
    · rw [hperm.length_eq, List.length_range]
    · exact fun v hv => List.mem_range.1 (hperm.mem_iff.1 hv)
  · rintro ⟨⟨hlength, hhead, hnodup⟩, hlt⟩
    exact ⟨hhead, perm_range_of_nodup hnodup hlt hlength⟩

theorem strangers_eq_nil_of_tourEdges (hN : N.WellFormed) (h : N.tourEdges vertices = .ok edges) :
    N.strangers vertices = [] := by
  obtain ⟨rest, rfl, hcircuit⟩ := exists_circuit hN h
  exact strangers_eq_nil_iff.2 (hcircuit.vertex_lt hN)

/-- A tour counts as complete if it starts at the source, repeats nothing, and lists as many numbers
that are no vertices as it leaves out vertices. It visits every vertex once if and only if it counts
as complete and lists vertices only; and if there are edges along all of it, it does so if and only
if it counts as complete. -/
theorem complete_iff_visitsAll (hN : N.WellFormed) (vertices : List Nat) :
    (N.isComplete vertices = true ↔ vertices.head? = some N.source ∧ vertices.Nodup ∧
      (N.strangers vertices).length = (N.missed vertices).length) ∧
    (N.VisitsAll vertices ↔ N.isComplete vertices = true ∧ ∀ v ∈ vertices, v < N.dimension) ∧
    (∀ edges, N.tourEdges vertices = .ok edges →
      (N.isComplete vertices = true ↔ N.VisitsAll vertices)) := by
  refine ⟨isComplete_iff_length, ?_, fun edges hedges => ?_⟩
  · rw [visitsAll_iff, strangers_eq_nil_iff]
  · rw [visitsAll_iff, strangers_eq_nil_of_tourEdges hN hedges]
    exact (and_iff_left rfl).symm

theorem complete_iff_visitsAll_triangle : triangle.WellFormed ∧ triangle.VisitsAll [0, 2, 1] := by
  have hN := wellFormed_of_ofArcs ofArcs_triangle
  exact ⟨hN, (complete_iff_visitsAll hN [0, 2, 1]).2.1.2 ⟨by decide, by decide⟩⟩

/-- The triangle has three vertices, and the third one is not visited. -/
theorem isComplete_with_stranger : triangle.WellFormed ∧ triangle.isComplete [0, 1, 7] = true ∧
    ¬ triangle.VisitsAll [0, 1, 7] := by
  refine ⟨wellFormed_of_ofArcs ofArcs_triangle, by decide, fun h => ?_⟩
  exact absurd (h.perm.mem_iff.1 (by decide : 7 ∈ [0, 1, 7])) (by decide)

end TourPricing.Network
