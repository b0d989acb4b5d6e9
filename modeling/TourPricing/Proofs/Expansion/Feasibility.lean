import TourPricing.Proofs.Clock
import TourPricing.Proofs.Expansion.Tracing
import TourPricing.Proofs.Tour

namespace TourPricing

variable {N : Network} {E : Expansion} {edges : List Edge} {vertices rest : List Nat} {r : Route}

namespace Route

theorem visitsOnce?_of_forall_lt {n : Nat} {seen visits : List Nat} (h : ∀ v ∈ visits, v < n) :
    visitsOnce? n seen visits = some (decide (visits.Nodup ∧ ∀ v ∈ visits, v ∉ seen)) := by
  induction visits generalizing seen with
  | nil => simp [visitsOnce?]
  | cons v rest ih =>
    obtain ⟨hv, hrest⟩ := List.forall_mem_cons.1 h
    rw [visitsOnce?, if_neg (Nat.not_le.2 hv)]
    split
    · rename_i hseen
      rw [eq_comm, Option.some.injEq, decide_eq_false_iff_not]
      exact fun hnew => hnew.2 v List.mem_cons_self (List.contains_iff_mem.1 hseen)
    · rename_i hseen
      rw [List.contains_iff_mem] at hseen
      rw [ih hrest, Option.some.injEq, decide_eq_decide, List.nodup_cons, List.forall_mem_cons]
      simp only [List.mem_cons, not_or]
      constructor
      · rintro ⟨hnodup, hnew⟩
        exact ⟨⟨fun hmem => (hnew v hmem).1 rfl, hnodup⟩, hseen, fun w hw => (hnew w hw).2⟩
      · rintro ⟨⟨hmem, hnodup⟩, _, hnew⟩
        exact ⟨hnodup, fun w hw => ⟨fun he => hmem (he ▸ hw), hnew w hw⟩⟩

end Route

section

variable (t : Nat)

theorem travelTime_departInTurn :
    (Route.mk (departInTurn t edges)).travelTime = total (edges.map (·.travelTime)) := by
  rw [Route.travelTime]
  induction edges generalizing t with
  | nil => rfl
  | cons e rest ih =>
    have hleg : (e.departAt t).travelTime = e.travelTime := Nat.add_sub_cancel_left t e.travelTime
    rw [departInTurn, List.map_cons, total_cons, ih, hleg, List.map_cons, total_cons]

theorem arrival_departInTurn (h : edges ≠ []) :
    (Route.mk (departInTurn t edges)).arrival = t + total (edges.map (·.travelTime)) := by
  rw [Route.arrival]
  induction edges generalizing t with
  | nil => exact absurd rfl h
  | cons e rest ih =>
    cases rest with
    | nil => rfl
    | cons f rest =>
      have hlast := ih (t + e.travelTime) (List.cons_ne_nil f rest)
      rw [departInTurn] at hlast
      rw [departInTurn, departInTurn, List.getLast?_cons_cons, hlast, Nat.add_assoc]
      rfl

theorem head_le_of_mem_departInTurn {leg : Leg} (h : leg ∈ departInTurn t edges) :
    leg.head.time ≤ t + total (edges.map (·.travelTime)) := by
  induction edges generalizing t with
  | nil => exact nomatch h
  | cons e rest ih =>
    rw [List.map_cons, total_cons, ← Nat.add_assoc]
    rcases List.mem_cons.1 h with rfl | h
    · exact Nat.le_add_right _ _
    · exact ih _ h

theorem forall_head_iff {p : Nat → Prop} (hp : ∀ a b, a ≤ b → p b → p a) (h : edges ≠ []) :
    (∀ leg ∈ departInTurn t edges, p leg.head.time) ↔
      p (t + total (edges.map (·.travelTime))) := by
  constructor
  · intro hall
    have hne : departInTurn t edges ≠ [] := by
      rw [← List.length_pos_iff, length_departInTurn]
      exact List.length_pos_iff.2 h
    have hlast := arrival_departInTurn t h
    rw [Route.arrival, List.getLast?_eq_some_getLast hne] at hlast
    rw [← hlast]
    exact hall _ (List.getLast_mem hne)
  · intro hlast leg hl
    exact hp _ _ (head_le_of_mem_departInTurn t hl) hlast

theorem travelTime?_departInTurn (h : total (edges.map (·.travelTime)) < timeLimit) :
    (Route.mk (departInTurn t edges)).travelTime? = some (total (edges.map (·.travelTime))) := by
  rw [Route.travelTime?_eq_some_iff]
  refine ⟨fun leg hl => ?_, travelTime_departInTurn t, h⟩
  obtain ⟨e, _, _, _, rfl⟩ := exists_of_mem_departInTurn _ _ hl
  exact Nat.le_add_right _ _

end

namespace Network

/-- In a checked network a tour does not come across edges that do not exist. -/
theorem tourEdges_ne_unknownEdge (hN : N.WellFormed) (vertices : List Nat) (n : Nat) :
    N.tourEdges vertices ≠ .error (.unknownEdge n) := by
  intro hn
  rw [tourEdges] at hn
  split at hn
  · obtain ⟨⟨u, v⟩, _, hstep⟩ := exists_of_mapM_error hn
    change N.edgeTo u v = _ at hstep
    rw [edgeTo_eq hN] at hstep
    split at hstep <;> cases hstep
  · cases hn

namespace Circuit

variable (hN : N.WellFormed) (h : N.Circuit rest edges)

include h

theorem ne_nil : edges ≠ [] := by
  obtain ⟨_, _, rfl, _⟩ := h.exists_cons
  exact List.cons_ne_nil _ _

theorem length_eq : edges.length = (N.source :: rest).length := by
  rw [← h.sources, List.length_map]

include hN

theorem vertex_lt : ∀ v ∈ N.source :: rest, v < N.dimension := by
  intro v hv
  rw [← h.sources] at hv
  obtain ⟨e, he, rfl⟩ := List.mem_map.1 hv
  exact (hN.edge_ok e (h.mem e he)).1

/-- The departures along a closed walk make a tour if and only if the walk is complete. -/
theorem isTour?_eq : (Route.mk (departInTurn 0 edges)).isTour? N =
    some (N.isComplete (N.source :: rest)) := by
  have hperm : (rest ++ [N.source]).Perm (N.source :: rest) := List.perm_append_singleton _ _
  have hconnected : (Route.mk (departInTurn 0 edges)).isConnected = true :=
    Route.isConnected_iff.2 (departInTurn_isChain h.isChain)
  have hstart : (departInTurn 0 edges).head?.map (·.tail) = some ⟨N.source, 0⟩ := by
    obtain ⟨first, others, rfl, hsource, _⟩ := h.exists_cons
    rw [departInTurn, List.head?_cons, Option.map_some, Edge.departAt, hsource]
  have hend : (departInTurn 0 edges).getLast?.map (·.head.vertex) = some N.source := by
    rw [← List.getLast?_map, heads_departInTurn, h.targets, List.getLast?_concat]
  have hlt : ∀ v ∈ rest ++ [N.source], v < N.dimension :=
    fun v hv => h.vertex_lt hN v (hperm.mem_iff.1 hv)
  rw [Route.isTour?, heads_departInTurn, h.targets, length_departInTurn, h.length_eq,
    Route.visitsOnce?_of_forall_lt hlt]
  by_cases hlength : (N.source :: rest).length = N.dimension
  · rw [if_pos ⟨hlength, hconnected, hstart, hend⟩, isComplete, Option.some.injEq, decide_eq_decide,
      hperm.nodup_iff]
    constructor
    · exact fun hnodup => ⟨hlength, List.head?_cons, hnodup.1⟩
    · exact fun hall => ⟨hall.2.2, fun _ _ => List.not_mem_nil⟩
  · rw [if_neg fun hall => hlength hall.1, isComplete, decide_eq_false fun hall => hlength hall.1]

end Circuit

end Network

theorem Expansion.trace_ne_ok {reason : Untraceable} (h : N.tourEdges vertices = .error reason)
    (r : Route) : N.expand.trace vertices ≠ .ok r := by
  intro hr
  obtain ⟨edges, hok, _⟩ := trace_eq_ok_iff.1 hr
  change N.tourEdges vertices = .ok edges at hok
  rw [h] at hok
  cases hok

/-- A tour whose edges exist is traced if it comes back by the horizon. -/
theorem Expansion.trace_eq_ok_iff_of_edges (h : N.tourEdges vertices = .ok edges)
    (hne : edges ≠ []) : N.expand.trace vertices = .ok r ↔
      r = ⟨departInTurn 0 edges⟩ ∧ total (edges.map (·.travelTime)) ≤ N.horizon ∧
        total (edges.map (·.travelTime)) < timeLimit := by
  have hlast := forall_head_iff 0 (p := fun t => t ≤ N.horizon ∧ t < timeLimit)
    (fun _ _ hle h => ⟨Nat.le_trans hle h.1, Nat.lt_of_le_of_lt hle h.2⟩) hne
  rw [Nat.zero_add] at hlast
  rw [trace_eq_ok_iff, ← hlast]
  constructor
  · rintro ⟨edges', h', hlegs, hall⟩
    change N.tourEdges vertices = .ok edges' at h'
    rw [h] at h'
    obtain rfl := Except.ok.inj h'
    obtain ⟨legs⟩ := r
    obtain rfl : _ = legs := hlegs
    exact ⟨rfl, hall⟩
  · rintro ⟨rfl, hall⟩
    exact ⟨edges, h, rfl, hall⟩

theorem Network.source_not_mem_tail (h : N.isComplete vertices = true) :
    N.source ∉ vertices.tail := by
  obtain ⟨_, hhead, hnodup⟩ := of_decide_eq_true h
  cases vertices with
  | nil => cases hhead
  | cons v rest =>
    obtain rfl := Option.some.inj hhead
    exact (List.nodup_cons.1 hnodup).1

namespace Tour

/-- A tour and the route that it is traced through come to the same. -/
structure Matches (T : Tour) (N : Network) (r : Route) : Prop where
  perm : T.vertices.Perm (List.range N.dimension)
  head : T.vertices.head? = some N.source
  vertices : r.vertices = T.vertices ++ [N.source]
  travelTime : r.travelTime? = some r.arrival
  duration : r.arrival = T.duration
  cost : T.cost = some T.duration

theorem evaluate_eq (h : N.tourEdges vertices = .ok edges) (algorithm : String) :
    evaluate N vertices algorithm =
      { vertices, algorithm
        cost := some (total (edges.map (·.travelTime)))
        duration := total (edges.map (·.travelTime))
        feasible :=
          N.isComplete vertices && N.admitsReturn (total (edges.map (·.travelTime))) } := by
  rw [evaluate, h]

theorem feasible_iff (h : N.tourEdges vertices = .ok edges) (algorithm : String) :
    (evaluate N vertices algorithm).feasible = true ↔ N.isComplete vertices = true ∧
      total (edges.map (·.travelTime)) ≤ N.horizon ∧
      N.lowerBound.all (· ≤ total (edges.map (·.travelTime))) = true := by
  rw [evaluate_eq h, Bool.and_eq_true, Network.admitsReturn, Bool.and_eq_true, decide_eq_true_eq]

theorem isComplete_of_feasible {algorithm : String}
    (h : (evaluate N vertices algorithm).feasible = true) : N.isComplete vertices = true := by
  cases hedges : N.tourEdges vertices with
  | error reason =>
    rw [evaluate, hedges] at h
    cases h
  | ok edges => exact ((feasible_iff hedges algorithm).1 h).1

theorem matches_of_isComplete (hN : N.WellFormed) (h : N.tourEdges vertices = .ok edges)
    (hcomplete : N.isComplete vertices = true)
    (hfits : total (edges.map (·.travelTime)) < timeLimit) (algorithm : String) :
    (evaluate N vertices algorithm).Matches N ⟨departInTurn 0 edges⟩ := by
  obtain ⟨rest, rfl, hcircuit⟩ := Network.exists_circuit hN h
  obtain ⟨hlength, hhead, hnodup⟩ := of_decide_eq_true hcomplete
  have harrival := arrival_departInTurn 0 hcircuit.ne_nil
  rw [Nat.zero_add] at harrival
  rw [evaluate_eq h]
  constructor
  case perm => exact perm_range_of_nodup hnodup (hcircuit.vertex_lt hN) hlength
  case head => exact hhead
  case vertices =>
    obtain ⟨first, others, rfl, hsource, _⟩ := hcircuit.exists_cons
    rw [Route.vertices, heads_departInTurn, hcircuit.targets, departInTurn, Edge.departAt, hsource]
    rfl
  case travelTime => rw [travelTime?_departInTurn 0 hfits, harrival]
  case duration => exact harrival
  case cost => rfl

/-- Visits along existing edges are feasible if and only if they are traced through a complete tour
that does not return too early. -/
theorem feasible_iff_exists_route (hN : N.WellFormed) (h : N.tourEdges vertices = .ok edges)
    (hfits : total (edges.map (·.travelTime)) < timeLimit) (algorithm : String) :
    (evaluate N vertices algorithm).feasible = true ↔
      ∃ r, N.expand.trace vertices = .ok r ∧ r.isTour N = true ∧
        N.lowerBound.all (· ≤ r.arrival) = true := by
  obtain ⟨rest, rfl, hcircuit⟩ := Network.exists_circuit hN h
  have htour := hcircuit.isTour?_eq hN
  have harrival := arrival_departInTurn 0 hcircuit.ne_nil
  rw [Nat.zero_add] at harrival
  rw [feasible_iff h]
  constructor
  · rintro ⟨hcomplete, hle, hlower⟩
    refine ⟨⟨departInTurn 0 edges⟩, ?_, ?_, ?_⟩
    · exact (Expansion.trace_eq_ok_iff_of_edges h hcircuit.ne_nil).2 ⟨rfl, hle, hfits⟩
    · rw [Route.isTour, htour, hcomplete]
      rfl
    · rw [harrival]
      exact hlower
  · rintro ⟨r, hr, hisTour, hlower⟩
    obtain ⟨rfl, hle, _⟩ := (Expansion.trace_eq_ok_iff_of_edges h hcircuit.ne_nil).1 hr
    rw [Route.isTour, htour, beq_iff_eq, Option.some.injEq] at hisTour
    rw [harrival] at hlower
    exact ⟨hisTour, hle, hlower⟩

/-- Whether the edges of a tour, if it has them all, take a time together. -/
def Fits (N : Network) (vertices : List Nat) : Prop :=
  ∀ edges, N.tourEdges vertices = .ok edges → total (edges.map (·.travelTime)) < timeLimit

theorem evaluate?_eq_some_iff (hN : N.WellFormed) {algorithm : String} {T : Tour} :
    evaluate? N vertices algorithm = some T ↔
      Fits N vertices ∧ evaluate N vertices algorithm = T := by
  rw [evaluate?, Fits]
  split
  · rename_i n hn
    exact absurd hn (Network.tourEdges_ne_unknownEdge hN vertices n)
  · rename_i reason hreason
    rw [hreason, Option.some.injEq]
    exact ⟨fun h => ⟨fun _ hedges => (by cases hedges), h⟩, fun h => h.2⟩
  · rename_i edges hedges
    simp only [hedges, Except.ok.injEq, forall_eq', Option.map_eq_some_iff,
      totalTime?_eq_some_iff, and_assoc, exists_eq_left']

/-- Visits are evaluated unless they take too long for a time. They are feasible if and only if the
tour is traced through a complete tour of the network that does not return too early. -/
theorem feasible_iff_traced (hN : N.WellFormed) (vertices : List Nat) (algorithm : String) :
    ((∃ T, evaluate? N vertices algorithm = some T) ↔ Fits N vertices) ∧
    ∀ T, evaluate? N vertices algorithm = some T → T.vertices = vertices ∧
      (∀ r, N.expand.trace vertices = .ok r → r.isTour? N ≠ none) ∧
      (T.feasible = true ↔ ∃ r, N.expand.trace vertices = .ok r ∧ r.isTour N = true ∧
        N.lowerBound.all (· ≤ r.arrival) = true) ∧
      (T.feasible = true → ∃ r, N.expand.trace vertices = .ok r ∧ T.Matches N r) := by
  constructor
  · simp only [evaluate?_eq_some_iff hN, exists_and_left, exists_eq', and_true]
  · intro T hT
    obtain ⟨hfits, rfl⟩ := (evaluate?_eq_some_iff hN).1 hT
    constructor
    · rw [evaluate]
      split <;> rfl
    · cases hedges : N.tourEdges vertices with
      | error reason =>
        have hfeasible : (evaluate N vertices algorithm).feasible = false := by
          rw [evaluate, hedges]
        rw [hfeasible]
        refine ⟨fun r hr => absurd hr (Expansion.trace_ne_ok hedges r), ⟨nofun, ?_⟩, nofun⟩
        rintro ⟨r, hr, _⟩
        exact absurd hr (Expansion.trace_ne_ok hedges r)
      | ok edges =>
        have htotal := hfits edges hedges
        obtain ⟨rest, rfl, hcircuit⟩ := Network.exists_circuit hN hedges
        refine ⟨fun r hr => ?_, feasible_iff_exists_route hN hedges htotal algorithm,
          fun hfeasible => ?_⟩
        · obtain ⟨rfl, _⟩ := (Expansion.trace_eq_ok_iff_of_edges hedges hcircuit.ne_nil).1 hr
          rw [hcircuit.isTour?_eq hN]
          exact Option.some_ne_none _
        · obtain ⟨hcomplete, hle, _⟩ := (feasible_iff hedges algorithm).1 hfeasible
          refine ⟨⟨departInTurn 0 edges⟩, ?_,
            matches_of_isComplete hN hedges hcomplete htotal algorithm⟩
          exact (Expansion.trace_eq_ok_iff_of_edges hedges hcircuit.ne_nil).2 ⟨rfl, hle, htotal⟩

theorem feasible_iff_traced_triangle : Network.triangle.WellFormed ∧
    ∃ T, evaluate? Network.triangle [0, 1, 2] "around" = some T ∧ T.feasible = true ∧
      ∃ r, Network.triangle.expand.trace [0, 1, 2] = .ok r ∧ T.Matches Network.triangle r := by
  have hN := Network.wellFormed_of_ofArcs Network.ofArcs_triangle
  have hfits : Fits Network.triangle [0, 1, 2] := by
    intro edges hedges
    obtain rfl := Except.ok.inj hedges
    decide
  obtain ⟨hevaluated, hall⟩ := feasible_iff_traced hN [0, 1, 2] "around"
  obtain ⟨T, hT⟩ := hevaluated.2 hfits
  obtain ⟨_, _, hiff, hmatches⟩ := hall T hT
  have hfeasible : T.feasible = true :=
    hiff.2 ⟨Route.triangle, rfl, by decide, by decide⟩
  exact ⟨hN, T, hT, hfeasible, hmatches hfeasible⟩

end Tour

def Network.heavy : Network :=
  { Network.withArcs "heavy" 2 0 [⟨0, 1, 2147483648⟩, ⟨1, 0, 2147483648⟩] with horizon := 10 }

theorem Network.ofArcs_heavy : Network.ofArcs "heavy" 2 0
    [⟨0, 1, 2147483648⟩, ⟨1, 0, 2147483648⟩] (some 10) = .ok Network.heavy := rfl

/-- The way out and back takes too long for a time, so that its evaluation fails where the search
for its route only comes too late. -/
theorem Tour.evaluate?_heavy : Network.heavy.WellFormed ∧
    Tour.evaluate? Network.heavy [0, 1] "given" = none ∧
    Network.heavy.expand.trace [0, 1] = .error (.late 2147483648 1 10) :=
  ⟨Network.wellFormed_of_ofArcs Network.ofArcs_heavy, by decide +kernel, by decide +kernel⟩

end TourPricing
