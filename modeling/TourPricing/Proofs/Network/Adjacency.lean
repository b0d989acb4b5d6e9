import Mathlib.Data.List.Induction
import TourPricing.Proofs.Expansion.Tracing
import TourPricing.Proofs.Lists

namespace TourPricing

variable {arcs : List Arc} {out : Array (List Nat)} {a : Arc} {n u v : Nat}

theorem getElem?_concat_eq_some_iff {b : Arc} {i : Nat} :
    (arcs ++ [a])[i]? = some b ↔ arcs[i]? = some b ∨ i = arcs.length ∧ a = b := by
  rcases Nat.lt_trichotomy i arcs.length with hlt | rfl | hgt
  · rw [List.getElem?_append_left hlt]
    simp [hlt.ne]
  · simp
  · have hne : i - arcs.length ≠ 0 := by omega
    rw [List.getElem?_append_right hgt.le, List.getElem?_eq_none hgt.le]
    simp [hne, hgt.ne']

theorem numbered_concat (arcs : List Arc) (a : Arc) :
    numbered (arcs ++ [a]) =
      (numbered arcs).push ⟨arcs.length, a.source, a.target, a.travelTime⟩ := by
  simp [numbered, List.zipIdx_append]

theorem adjacency_push (n : Nat) (edges : Array Edge) (e : Edge) :
    adjacency n (edges.push e) = (adjacency n edges).modify e.source (· ++ [e.id]) := by
  apply Array.ext
  · simp [adjacency]
  · intro v hv hv'
    rw [Array.getElem_modify]
    by_cases hsource : e.source = v <;> simp [adjacency, edgesFrom, hsource]

theorem getD_modify_concat (hu : u < out.size) (k v : Nat) :
    (out.modify u (· ++ [k])).getD v [] = out.getD v [] ++ if u = v then [k] else [] := by
  rw [Array.getD_eq_getD_getElem?, Array.getD_eq_getD_getElem?, Array.getElem?_modify]
  by_cases huv : u = v
  · subst huv
    rw [Array.getElem?_eq_getElem hu]
    simp
  · simp [huv]

theorem flatten_modify_concat_perm {l : List (List Nat)} (hu : u < l.length) (k : Nat) :
    (l.modify u (· ++ [k])).flatten.Perm (l.flatten ++ [k]) := by
  induction l generalizing u with
  | nil => exact absurd hu (Nat.not_lt_zero u)
  | cons row rest ih =>
    cases u with
    | zero =>
      rw [List.modify_zero_cons, List.flatten_cons, List.flatten_cons, List.append_assoc,
        List.append_assoc]
      exact List.perm_append_comm.append_left row
    | succ u =>
      rw [List.modify_succ_cons, List.flatten_cons, List.flatten_cons, List.append_assoc]
      exact (ih (Nat.lt_of_succ_lt_succ hu)).append_left row

/-- Lists at `n` vertices that hold the places of all arcs, each at the vertex that the arc
leaves. -/
structure ListsArcs (n : Nat) (arcs : List Arc) (out : Array (List Nat)) : Prop where
  size : out.size = n
  perm : out.toList.flatten.Perm (List.range arcs.length)
  ascending : ∀ v, (out.getD v []).Pairwise (· < ·)
  mem_iff : ∀ v i, i ∈ out.getD v [] ↔ ∃ w t, arcs[i]? = some ⟨v, w, t⟩

namespace ListsArcs

theorem lt_of_mem (h : ListsArcs n arcs out) {i : Nat} (hi : i ∈ out.getD v []) :
    i < arcs.length := by
  obtain ⟨w, t, harc⟩ := (h.mem_iff v i).1 hi
  exact (List.getElem?_eq_some_iff.1 harc).1

theorem empty (n : Nat) : ListsArcs n [] (adjacency n (numbered [])) := by
  have hnone : adjacency n (numbered []) = Array.replicate n [] := by
    apply Array.ext
    · simp [adjacency]
    · simp [adjacency, numbered, edgesFrom]
  rw [hnone]
  have hempty (v : Nat) : (Array.replicate n ([] : List Nat)).getD v [] = [] := by
    rw [Array.getD_eq_getD_getElem?, Array.getElem?_replicate]
    split <;> rfl
  constructor
  case size => exact Array.size_replicate
  case perm =>
    rw [Array.toList_replicate, List.flatten_replicate_nil]
    exact List.Perm.refl _
  case ascending =>
    intro v
    rw [hempty]
    exact .nil
  case mem_iff =>
    intro v i
    simp [hempty]

theorem push (h : ListsArcs n arcs out) (ha : a.source < n) :
    ListsArcs n (arcs ++ [a]) (out.modify a.source (· ++ [arcs.length])) := by
  have hlt : a.source < out.size := h.size ▸ ha
  have hgetD := getD_modify_concat hlt arcs.length
  constructor
  case size => rw [Array.size_modify, h.size]
  case perm =>
    rw [Array.toList_modify, List.length_append, List.length_singleton, List.range_succ]
    exact (flatten_modify_concat_perm hlt arcs.length).trans (h.perm.append_right _)
  case ascending =>
    intro v
    rw [hgetD, List.pairwise_append]
    refine ⟨h.ascending v, ?_, ?_⟩
    · split
      · exact List.pairwise_singleton _ _
      · exact .nil
    · intro i hi j hj
      split at hj
      · rw [List.mem_singleton.1 hj]
        exact h.lt_of_mem hi
      · exact absurd hj List.not_mem_nil
  case mem_iff =>
    intro v i
    simp only [hgetD, List.mem_append, h.mem_iff, getElem?_concat_eq_some_iff, exists_or]
    apply or_congr_right
    constructor
    · intro hi
      split at hi
      · rename_i hsource
        exact ⟨a.target, a.travelTime, List.mem_singleton.1 hi, hsource ▸ rfl⟩
      · exact absurd hi List.not_mem_nil
    · rintro ⟨w, t, rfl, rfl⟩
      rw [if_pos rfl]
      exact List.mem_singleton_self _

end ListsArcs

/-- Whatever the order of the arcs, the lists of a network hold all their places. -/
theorem listsArcs_adjacency (h : ∀ a ∈ arcs, a.source < n) :
    ListsArcs n arcs (adjacency n (numbered arcs)) := by
  induction arcs using List.reverseRecOn with
  | nil => exact ListsArcs.empty n
  | append_singleton arcs a ih =>
    rw [numbered_concat, adjacency_push]
    apply ListsArcs.push
    · exact ih fun b hb => h b (List.mem_append_left _ hb)
    · exact h a (List.mem_append_right _ (List.mem_singleton_self a))

def placesOf (arcs : List Arc) (u v : Nat) : Set Nat :=
  {i | ∃ t, arcs[i]? = some ⟨u, v, t⟩}

namespace Network

variable {N : Network}

theorem findEdge_eq (N : Network) (u v : Nat) : N.findEdge u v =
    ((N.outNumbers u).find? fun i => (N.edge? i).any (·.target == v)).bind N.edge? :=
  List.find?_filterMap

section

variable (hN : N.WellFormed) (hedges : N.edges = TourPricing.numbered arcs)

include hedges

theorem edge?_eq_of_edges (i : Nat) :
    N.edge? i = arcs[i]?.map fun a => ⟨i, a.source, a.target, a.travelTime⟩ := by
  rw [edge?, hedges, TourPricing.numbered, List.getElem?_toArray, List.getElem?_map,
    List.getElem?_zipIdx, Option.map_map]
  simp [Function.comp_def]

theorem mem_edges_iff {e : Edge} :
    e ∈ N.edges ↔ arcs[e.id]? = some ⟨e.source, e.target, e.travelTime⟩ := by
  have hmem : e ∈ N.edges ↔ N.edge? e.id = some e := by
    constructor
    · exact N.edge?_of_mem
    · exact Array.mem_of_getElem?
  rw [hmem, edge?_eq_of_edges hedges, Option.map_eq_some_iff]
  constructor
  · rintro ⟨a, ha, heq⟩
    rw [ha, ← heq]
  · intro ha
    exact ⟨_, ha, rfl⟩

include hN

theorem listsArcs_outgoing : ListsArcs N.dimension arcs N.outgoing := by
  rw [hN.outgoing_eq, hedges]
  apply listsArcs_adjacency
  intro a ha
  obtain ⟨i, hi, rfl⟩ := List.getElem_of_mem ha
  have hmem : ⟨i, arcs[i].source, arcs[i].target, arcs[i].travelTime⟩ ∈ N.edges :=
    (mem_edges_iff hedges).2 (List.getElem?_eq_getElem hi)
  exact (hN.edge_ok _ hmem).1

theorem mem_outNumbers_and_iff {i : Nat} :
    (i ∈ N.outNumbers u ∧ (N.edge? i).any (·.target == v) = true) ↔ i ∈ placesOf arcs u v := by
  change i ∈ N.outgoing.getD u [] ∧ _ ↔ _
  rw [(listsArcs_outgoing hN hedges).mem_iff, edge?_eq_of_edges hedges]
  constructor
  · rintro ⟨⟨w, t, harc⟩, htarget⟩
    rw [harc] at htarget
    obtain rfl : w = v := by simpa using htarget
    exact ⟨t, harc⟩
  · rintro ⟨t, harc⟩
    rw [harc]
    exact ⟨⟨v, t, rfl⟩, by simp⟩

theorem findEdge_eq_some_iff {e : Edge} : N.findEdge u v = some e ↔
    N.edge? e.id = some e ∧ IsLeast (placesOf arcs u v) e.id := by
  have hascending : (N.outNumbers u).Pairwise (· < ·) :=
    (listsArcs_outgoing hN hedges).ascending u
  have hplaces : {i | i ∈ N.outNumbers u ∧ (N.edge? i).any (·.target == v) = true} =
      placesOf arcs u v := Set.ext fun i => mem_outNumbers_and_iff hN hedges
  rw [findEdge_eq, Option.bind_eq_some_iff, ← hplaces]
  simp only [find?_eq_some_iff_isLeast hascending]
  constructor
  · rintro ⟨i, hleast, hi⟩
    obtain rfl := N.id_of_edge? hi
    exact ⟨hi, hleast⟩
  · rintro ⟨he, hleast⟩
    exact ⟨e.id, hleast, he⟩

theorem findEdge_eq_none_iff : N.findEdge u v = none ↔ ∀ t, ⟨u, v, t⟩ ∉ arcs := by
  rw [findEdge, List.find?_eq_none]
  constructor
  · intro hnone t hmem
    obtain ⟨i, harc⟩ := List.mem_iff_getElem?.1 hmem
    have hedge : ⟨i, u, v, t⟩ ∈ N.edges := (mem_edges_iff hedges).2 harc
    exact hnone _ (hN.mem_outEdges.2 ⟨hedge, rfl⟩) (beq_self_eq_true v)
  · intro hno e he htarget
    obtain ⟨hedge, rfl⟩ := hN.mem_outEdges.1 he
    obtain rfl := beq_iff_eq.1 htarget
    exact hno _ (List.mem_of_getElem? ((mem_edges_iff hedges).1 hedge))

end

/-- A network whose edges are some arcs, numbered in order. Between two vertices one finds the edge
with the least number, whether or not a missing edge is an error; what is no vertex has no edges. -/
structure Indexes (N : Network) (arcs : List Arc) : Prop where
  edgeCount : N.edgeCount = arcs.length
  edge?_eq : ∀ i, N.edge? i = arcs[i]?.map fun a => ⟨i, a.source, a.target, a.travelTime⟩
  listsArcs : ListsArcs N.dimension arcs N.outgoing
  findEdge_eq_some_iff : ∀ u v e, N.findEdge u v = some e ↔
    N.edge? e.id = some e ∧ IsLeast (placesOf arcs u v) e.id
  findEdge_eq_none_iff : ∀ u v, N.findEdge u v = none ↔ ∀ t, ⟨u, v, t⟩ ∉ arcs
  edgeTo_eq : ∀ u v,
    N.edgeTo u v = (N.findEdge u v).elim (.error (.missingEdge u v)) .ok

theorem indexes_of_edges (hN : N.WellFormed) (hedges : N.edges = TourPricing.numbered arcs) :
    N.Indexes arcs := by
  constructor
  case edgeCount => rw [edgeCount, hedges, size_numbered]
  case edge?_eq => exact edge?_eq_of_edges hedges
  case listsArcs => exact listsArcs_outgoing hN hedges
  case findEdge_eq_some_iff => exact fun u v e => findEdge_eq_some_iff hN hedges
  case findEdge_eq_none_iff => exact fun u v => findEdge_eq_none_iff hN hedges
  case edgeTo_eq =>
    intro u v
    rw [edgeTo_eq hN]
    cases N.findEdge u v <;> rfl

end Network

end TourPricing
