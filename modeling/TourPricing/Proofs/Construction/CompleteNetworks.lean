import TourPricing.Proofs.Construction.MultiStart
import TourPricing.Proofs.Construction.NearestWalk
import TourPricing.Proofs.Expansion.DefaultHorizon

namespace TourPricing

variable {N : Network} {vertices visited earlier : List Nat} {edges : List Edge} {e : Edge}
  {u : Nat}

namespace Network

/-- Networks with an edge from every vertex to every other one, in which tours may take as long as
the default horizon and may return as early as they can. -/
structure Generous (N : Network) : Prop where
  joined : ∀ u < N.dimension, ∀ v < N.dimension, u ≠ v →
    ∃ e ∈ N.edges, e.source = u ∧ e.target = v
  horizon : ∃ t, N.defaultHorizon? = some t ∧ t ≤ N.horizon
  lowerBound : N.lowerBound = none

theorem Generous.defaultHorizon_le (h : N.Generous) :
    N.defaultHorizon ≤ N.horizon ∧ N.defaultHorizon < timeLimit := by
  obtain ⟨t, ht, hle⟩ := h.horizon
  obtain ⟨_, rfl, hlt⟩ := N.defaultHorizon?_eq_some_iff.1 ht
  exact ⟨hle, hlt⟩

theorem Generous.exists_outEdge {u v : Nat} (h : N.Generous) (hN : N.WellFormed)
    (hu : u < N.dimension) (hv : v < N.dimension) (hne : u ≠ v) :
    ∃ e ∈ N.outEdges u, e.target = v := by
  obtain ⟨e, he, hsource, htarget⟩ := h.joined u hu v hv hne
  exact ⟨e, hN.mem_outEdges.2 ⟨he, hsource⟩, htarget⟩

namespace GreedyWalk

theorem leavesOnce_concat (w : N.GreedyWalk (u :: earlier) edges) (hN : N.WellFormed)
    (he : e ∈ N.outEdges u) : N.LeavesOnce (edges ++ [e]) := by
  obtain ⟨hmem, hsource⟩ := hN.mem_outEdges.1 he
  constructor
  case mem =>
    exact List.forall_mem_append.2 ⟨w.mem_edges hN, List.forall_mem_singleton.2 hmem⟩
  case nodup =>
    rw [List.map_append, (w.joins hN).sources, List.reverse_cons, List.dropLast_concat,
      List.map_singleton, hsource, ← List.reverse_cons]
    exact List.nodup_reverse.2 w.nodup

theorem next_le (w : N.GreedyWalk (u :: earlier) edges) (hN : N.WellFormed)
    (he : e ∈ N.outEdges u) :
    total (edges.map (·.travelTime)) + e.travelTime ≤ N.defaultHorizon := by
  rw [← total_concat]
  exact (w.leavesOnce_concat hN he).total_le hN

theorem not_ends (w : N.GreedyWalk visited edges) (hN : N.WellFormed) (hgenerous : N.Generous)
    (hlength : visited.length < N.dimension) : ¬ N.Ends visited edges := by
  obtain ⟨u, earlier, rfl⟩ := w.exists_head
  obtain ⟨v, hv, hnew⟩ := exists_lt_not_mem hlength
  have hne : u ≠ v := fun h => hnew (h ▸ List.mem_cons_self)
  obtain ⟨e, he, rfl⟩ := hgenerous.exists_outEdge hN (w.lt hN u List.mem_cons_self) hv hne
  intro hends
  have hin_time := (w.next_le hN he).trans hgenerous.defaultHorizon_le.1
  have hcandidate := mem_candidates.2 ⟨he, hnew, hin_time⟩
  rw [hends u rfl] at hcandidate
  exact absurd hcandidate List.not_mem_nil

theorem isComplete (w : N.GreedyWalk visited edges) (hlength : visited.length = N.dimension) :
    N.isComplete visited.reverse = true := by
  rw [Network.isComplete, decide_eq_true_eq, List.length_reverse, List.head?_reverse, w.getLast?_eq]
  exact ⟨hlength, rfl, List.nodup_reverse.2 w.nodup⟩

/-- From the last vertex of a walk there is an edge back to the source, unless it is the source. -/
theorem exists_tourEdges (w : N.GreedyWalk visited edges) (hN : N.WellFormed)
    (hgenerous : N.Generous) (hlength : 2 ≤ visited.length) :
    ∃ all, N.tourEdges visited.reverse = .ok all := by
  obtain ⟨u, earlier, rfl⟩ := w.exists_head
  have hsource : N.source ∈ earlier := by
    have hlast := w.getLast?_eq
    cases earlier with
    | nil => simp at hlength
    | cons v rest =>
      rw [List.getLast?_cons_cons] at hlast
      exact List.mem_of_getLast? hlast
  have hne : u ≠ N.source := fun h => (List.nodup_cons.1 w.nodup).1 (h ▸ hsource)
  obtain ⟨e, he, htarget⟩ :=
    hgenerous.exists_outEdge hN (w.lt hN u List.mem_cons_self) hN.source_lt hne
  obtain ⟨f, hf⟩ := exists_findEdge he
  have hhead : (u :: earlier).reverse.head? = some N.source := by
    rw [List.head?_reverse, w.getLast?_eq]
  have hlast : (u :: earlier).reverse.getLast? = some u := by
    rw [List.getLast?_reverse, List.head?_cons]
  rw [(w.joins hN).tourEdges_eq hhead hlast, edgeTo_eq hN, ← htarget, hf]
  exact ⟨_, rfl⟩

end GreedyWalk

theorem Generous.keepsTime (h : N.Generous) (hN : N.WellFormed) : N.KeepsTime :=
  fun _ _ _ w _ he => (w.next_le hN he).trans_lt h.defaultHorizon_le.2

namespace IsNearestWalk

variable (h : N.IsNearestWalk vertices) (hN : N.WellFormed) (hgenerous : N.Generous)

include h hN hgenerous

theorem exists_full : ∃ visited edges, vertices = visited.reverse ∧ N.GreedyWalk visited edges ∧
    visited.length = N.dimension := by
  obtain ⟨visited, edges, rfl, w, hlength⟩ := h.exists_greedyWalk hN
  refine ⟨visited, edges, rfl, w, ?_⟩
  have hle : visited.length ≤ N.dimension := length_le_of_nodup w.nodup (w.lt hN)
  by_contra hne
  have hlt : visited.length < N.dimension := Nat.lt_of_le_of_ne hle hne
  exact w.not_ends hN hgenerous hlt (hlength.resolve_left hne)

theorem feasible (hdimension : 2 ≤ N.dimension) (algorithm : String) :
    Tour.Fits N vertices ∧ N.isComplete vertices = true ∧
      (Tour.evaluate N vertices algorithm).feasible = true := by
  obtain ⟨visited, edges, rfl, w, hlength⟩ := h.exists_full hN hgenerous
  have hcomplete := w.isComplete hlength
  obtain ⟨all, hall⟩ := w.exists_tourEdges hN hgenerous (hlength.symm ▸ hdimension)
  have hle := (leavesOnce_of_tourEdges hN hall (List.nodup_reverse.2 w.nodup)).total_le hN
  have hin_time := hle.trans hgenerous.defaultHorizon_le.1
  rw [Tour.feasible_iff hall, hgenerous.lowerBound]
  exact ⟨w.fits hN (hgenerous.keepsTime hN), hcomplete, hcomplete, hin_time, rfl⟩

end IsNearestWalk

end Network

section

variable {H : Type} [Construction H]

def BuildsNearest (N : Network) (h : H) : Prop :=
  ∃ vertices algorithm, N.IsNearestWalk vertices ∧
    Construction.construct? h N = some (Tour.evaluate N vertices algorithm)

def Succeeds (N : Network) (h : H) : Prop :=
  ∃ T, Construction.construct? h N = some T ∧ N.isComplete T.vertices = true ∧ T.feasible = true

theorem BuildsNearest.succeeds {h : H} (hnearest : BuildsNearest N h) (hN : N.WellFormed)
    (hdimension : 2 ≤ N.dimension) (hgenerous : N.Generous) : Succeeds N h := by
  obtain ⟨vertices, algorithm, hwalk, hconstruct⟩ := hnearest
  obtain ⟨_, hcomplete, hfeasible⟩ := hwalk.feasible hN hgenerous hdimension algorithm
  refine ⟨_, hconstruct, ?_, hfeasible⟩
  rw [Tour.vertices_evaluate]
  exact hcomplete

theorem MultiStart.succeeds {m : MultiStart H} (hparts : m.parts ≠ [])
    (hall : ∀ h ∈ m.parts, Succeeds N h) : Succeeds N m := by
  obtain ⟨best, hkeeps, heq⟩ := exists_keeps hparts N
  obtain ⟨h, hh, rfl⟩ := List.mem_map.1 hkeeps.mem
  obtain ⟨T, hT, hcomplete, hfeasible⟩ := hall h hh
  rw [Construction.construct_eq hT] at heq
  refine ⟨m.construct N, construct?_eq hparts fun h hh => ?_, ?_⟩
  · obtain ⟨T, hT, _⟩ := hall h hh
    exact ⟨T, hT⟩
  · rw [heq]
    exact ⟨hcomplete, hfeasible⟩

end

/-- On a complete network with two vertices at least, where the default horizon is a time that the
horizon is not below and tours may return at any time before, nearest neighbor finds a complete and
feasible tour, whatever is chosen on the way. So it succeeds for every seed, and so does a
multi-start over parts that answer with its walks, if there are any parts. -/
theorem nearest_succeeds (hN : N.WellFormed) (hdimension : 2 ≤ N.dimension)
    (hgenerous : N.Generous) :
    (∀ {σ : Type} (choose : Chooser σ) (s : σ), ∃ vertices,
      N.nearestWalk? choose s = some vertices ∧ N.isComplete vertices = true ∧
      ∀ algorithm, ∃ T, Tour.evaluate? N vertices algorithm = some T ∧ T.feasible = true) ∧
    (∀ h : NearestNeighbor, BuildsNearest N h ∧ Succeeds N h) ∧
    (∀ {H : Type} [Construction H] (m : MultiStart H), m.parts ≠ [] →
      (∀ h ∈ m.parts, BuildsNearest N h) → Succeeds N m) := by
  have hkeeps := hgenerous.keepsTime hN
  refine ⟨fun choose s => ?_, fun h => ?_, fun m hparts hall => ?_⟩
  · obtain ⟨vertices, hwalk⟩ := hkeeps.exists_nearestWalk? choose s
    have hfeasible := Network.IsNearestWalk.feasible ⟨_, choose, s, hwalk⟩ hN hgenerous hdimension
    refine ⟨vertices, hwalk, (hfeasible "").2.1, fun algorithm => ?_⟩
    obtain ⟨hfits, _, hanswer⟩ := hfeasible algorithm
    exact ⟨_, (Tour.evaluate?_eq_some_iff hN).2 ⟨hfits, rfl⟩, hanswer⟩
  · obtain ⟨vertices, hwalk, hconstruct⟩ := h.exists_construct? hN hkeeps
    have hnearest : BuildsNearest N h := ⟨vertices, h.name, hwalk, hconstruct⟩
    exact ⟨hnearest, hnearest.succeeds hN hdimension hgenerous⟩
  · exact m.succeeds hparts fun h hh => (hall h hh).succeeds hN hdimension hgenerous

def Network.allWays : Network :=
  { Network.withArcs "all ways" 3 1
      [⟨0, 1, 9⟩, ⟨0, 1, 1⟩, ⟨1, 0, 1⟩, ⟨0, 2, 4⟩, ⟨2, 0, 2⟩, ⟨1, 2, 3⟩, ⟨2, 1, 7⟩] with
    horizon := 19 }

theorem Network.ofArcs_allWays : Network.ofArcs "all ways" 3 1
    [⟨0, 1, 9⟩, ⟨0, 1, 1⟩, ⟨1, 0, 1⟩, ⟨0, 2, 4⟩, ⟨2, 0, 2⟩, ⟨1, 2, 3⟩, ⟨2, 1, 7⟩] none =
      .ok Network.allWays := rfl

theorem Network.generous_allWays : Network.allWays.Generous :=
  ⟨by decide +kernel, ⟨19, by decide +kernel, by decide⟩, rfl⟩

theorem nearest_succeeds_allWays : Network.allWays.WellFormed ∧ 2 ≤ Network.allWays.dimension ∧
    Network.allWays.Generous ∧ Succeeds Network.allWays MultiStart.standard := by
  have hN := Network.wellFormed_of_ofArcs Network.ofArcs_allWays
  have hdimension : 2 ≤ Network.allWays.dimension := by decide
  obtain ⟨_, hnearest, hmulti⟩ := nearest_succeeds hN hdimension Network.generous_allWays
  refine ⟨hN, hdimension, Network.generous_allWays, hmulti _ ?_ fun h _ => (hnearest h).1⟩
  exact List.cons_ne_nil _ _

/-- Both ways together take too long for a default horizon. -/
theorem Network.ofArcs_heavy_default : Network.ofArcs "heavy" 2 0
    [⟨0, 1, 2147483648⟩, ⟨1, 0, 2147483648⟩] none = .error .timeOverflow := rfl

end TourPricing
