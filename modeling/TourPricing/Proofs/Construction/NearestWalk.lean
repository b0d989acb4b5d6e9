import TourPricing.Proofs.Expansion.Feasibility
import TourPricing.Tour.Construction

namespace TourPricing

variable {N : Network} {vertices visited earlier : List Nat} {edges : List Edge} {e f : Edge}
  {leg : Leg} {u v t : Nat} {σ : Type}

namespace Network

/-- The edges that tours take between the consecutive vertices of a list. -/
structure Joins (N : Network) (vertices : List Nat) (edges : List Edge) : Prop where
  sources : edges.map (·.source) = vertices.dropLast
  targets : edges.map (·.target) = vertices.tail
  taken : ∀ e ∈ edges, N.edgeTo e.source e.target = .ok e

theorem Joins.closedSteps_eq (h : N.Joins vertices edges) (hhead : vertices.head? = some N.source)
    (hlast : vertices.getLast? = some v) :
    closedSteps vertices = edges.map (fun e => (e.source, e.target)) ++ [(v, N.source)] := by
  obtain ⟨first, rfl⟩ := List.getLast?_eq_some_iff.1 hlast
  have hlength : first.length = (first ++ [v]).tail.length := by simp
  have hsources : first = edges.map (·.source) := by
    rw [h.sources, List.dropLast_concat]
  rw [closedSteps, List.drop_one, List.take_one, hhead, List.zip_append hlength, ← h.targets,
    hsources, List.zip_map']
  rfl

theorem Joins.tourEdges_eq (h : N.Joins vertices edges) (hhead : vertices.head? = some N.source)
    (hlast : vertices.getLast? = some v) :
    N.tourEdges vertices = (N.edgeTo v N.source).map fun e => edges ++ [e] := by
  have hedges : (edges.map fun e => (e.source, e.target)).mapM
      (fun step => N.edgeTo step.1 step.2) = .ok edges := mapM_map_eq_ok h.taken
  rw [tourEdges, if_pos hhead, h.closedSteps_eq hhead hlast, List.mapM_append, hedges,
    List.mapM_cons]
  cases hback : N.edgeTo v N.source with
  | error reason =>
    simp only [hback]
    rfl
  | ok e =>
    simp only [hback]
    rfl

theorem Joins.eq_dropLast (h : N.Joins vertices edges) (hhead : vertices.head? = some N.source)
    {all : List Edge} (hall : N.tourEdges vertices = .ok all) : edges = all.dropLast := by
  obtain ⟨rest, rfl⟩ := List.head?_eq_some_iff.1 hhead
  rw [h.tourEdges_eq hhead List.getLast?_cons] at hall
  cases hback : N.edgeTo ((rest.getLast?).getD N.source) N.source with
  | error reason =>
    rw [hback] at hall
    cases hall
  | ok e =>
    rw [hback] at hall
    obtain rfl := Except.ok.inj hall
    rw [List.dropLast_concat]

theorem mem_candidates : e ∈ N.candidates u visited t ↔
    e ∈ N.outEdges u ∧ e.target ∉ visited ∧ t + e.travelTime ≤ N.horizon := by
  rw [candidates, List.mem_mergeSort, List.mem_filter, Bool.and_eq_true, Bool.not_eq_true',
    ← Bool.not_eq_true, List.contains_iff_mem, decide_eq_true_eq]

theorem exists_findEdge (h : e ∈ N.outEdges u) : ∃ f, N.findEdge u e.target = some f := by
  rw [← Option.isSome_iff_exists, findEdge, List.find?_isSome]
  exact ⟨e, h, beq_self_eq_true _⟩

theorem chooseNext_eq_none_iff {choose : Chooser σ} {s : σ} {l : List Edge} :
    chooseNext choose s l = none ↔ l = [] := by
  match l with
  | [] => simp [chooseNext]
  | [e] => simp [chooseNext]
  | e :: f :: rest => simp [chooseNext]

/-- Whatever new vertex comes next, the arrival there is a time. -/
def TimelyAhead (N : Network) (u : Nat) (visited : List Nat) (t : Nat) : Prop :=
  ∀ e ∈ N.outEdges u, e.target ∉ visited → t + e.travelTime < timeLimit

instance (N : Network) (u : Nat) (visited : List Nat) (t : Nat) :
    Decidable (N.TimelyAhead u visited t) :=
  inferInstanceAs (Decidable (∀ e ∈ N.outEdges u, e.target ∉ visited → _))

theorem candidates?_eq_some_iff {l : List Edge} : N.candidates? u visited t = some l ↔
    N.TimelyAhead u visited t ∧ N.candidates u visited t = l := by
  rw [candidates?, Option.ite_none_right_eq_some, Option.some.injEq, List.all_eq_true]
  simp [addTimes?, TimelyAhead, List.mem_filter]

theorem exists_of_chooseNext {choose : Chooser σ} {s s' : σ} {l : List Edge}
    (h : chooseNext choose s l = some (v, s')) :
    ∃ e ∈ l, e.target = v := by
  match l, h with
  | [e], h =>
    obtain ⟨hv, -⟩ := Prod.mk.inj (Option.some.inj h)
    exact ⟨e, List.mem_singleton_self e, hv⟩
  | e :: f :: rest, h =>
    obtain ⟨hv, -⟩ := Prod.mk.inj (Option.some.inj h)
    exact ⟨_, List.mem_of_mem_take (List.getElem_mem _), hv⟩

/-- All that one step of a walk can do: it ends where there is no candidate, or it goes on to one
by the edge that is found, provided that the arrivals are times. -/
theorem extendWalk?_cases (choose : Chooser σ) (n : Nat) (s : σ) :
    (N.candidates u (u :: earlier) t = [] ∧ ∀ walk,
      N.extendWalk? choose (n + 1) u earlier t s = some walk ↔
        N.TimelyAhead u (u :: earlier) t ∧ u :: earlier = walk) ∨
    ∃ e ∈ N.candidates u (u :: earlier) t, ∃ f, N.findEdge u e.target = some f ∧ ∃ s', ∀ walk,
      N.extendWalk? choose (n + 1) u earlier t s = some walk ↔
        N.TimelyAhead u (u :: earlier) t ∧ t + f.travelTime < timeLimit ∧
          N.extendWalk? choose n e.target (u :: earlier) (t + f.travelTime) s' = some walk := by
  simp only [extendWalk?, Option.bind_eq_bind, Option.bind_eq_some_iff, candidates?_eq_some_iff,
    and_assoc, exists_and_left, exists_eq_left']
  split
  · rename_i hnone
    exact .inl ⟨chooseNext_eq_none_iff.1 hnone, fun walk => by rw [Option.some.injEq]⟩
  · rename_i next s' hnext
    obtain ⟨e, he, rfl⟩ := exists_of_chooseNext hnext
    obtain ⟨f, hf⟩ := exists_findEdge (mem_candidates.1 he).1
    refine .inr ⟨e, he, f, hf, s', fun walk => ?_⟩
    simp only [hf, Option.map_some, Option.getD_some, Option.bind_eq_some_iff,
      addTimes?_eq_some_iff, and_assoc, exists_eq_left']

def IsFastest (N : Network) (leg : Leg) : Prop :=
  ∀ e ∈ N.edges, e.source = leg.tail.vertex → e.target = leg.head.vertex →
    leg.travelTime ≤ e.travelTime

/-- Walks from the source along candidates. The vertices are listed with the last one first, the
edges are those that tours take. -/
inductive GreedyWalk (N : Network) : List Nat → List Edge → Prop where
  | start : N.GreedyWalk [N.source] []
  | step {u : Nat} {earlier : List Nat} {edges : List Edge} {e f : Edge} :
      N.GreedyWalk (u :: earlier) edges →
      e ∈ N.candidates u (u :: earlier) (total (edges.map (·.travelTime))) →
      N.findEdge u e.target = some f →
      N.GreedyWalk (e.target :: u :: earlier) (edges ++ [f])

def Ends (N : Network) (visited : List Nat) (edges : List Edge) : Prop :=
  ∀ v ∈ visited.head?, N.candidates v visited (total (edges.map (·.travelTime))) = []

theorem total_concat (edges : List Edge) (f : Edge) : total ((edges ++ [f]).map (·.travelTime)) =
    total (edges.map (·.travelTime)) + f.travelTime := by
  rw [List.map_append, total_append]
  rfl

/-- A walk that is extended by a number of vertices ends or has that many vertices more. -/
theorem GreedyWalk.of_extendWalk? {walk : List Nat} {choose : Chooser σ} {n : Nat} {s : σ}
    (w : N.GreedyWalk (u :: earlier) edges) (ht : total (edges.map (·.travelTime)) = t)
    (h : N.extendWalk? choose n u earlier t s = some walk) :
    ∃ taken, N.GreedyWalk walk taken ∧
      (walk.length = earlier.length + 1 + n ∨ N.Ends walk taken) := by
  induction n generalizing u earlier edges t s with
  | zero =>
    obtain rfl := Option.some.inj h
    exact ⟨edges, w, .inl rfl⟩
  | succ n ih =>
    subst ht
    rcases extendWalk?_cases choose n s with ⟨hnone, hiff⟩ | ⟨e, he, f, hf, s', hiff⟩
    · obtain ⟨_, rfl⟩ := (hiff walk).1 h
      refine ⟨edges, w, .inr ?_⟩
      intro v hv
      obtain rfl := Option.some.inj hv
      exact hnone
    · obtain ⟨_, _, hrest⟩ := (hiff walk).1 h
      obtain ⟨taken, w', hlength⟩ := ih (w.step he hf) (total_concat edges f) hrest
      refine ⟨taken, w', hlength.imp_left fun h => ?_⟩
      rw [h, List.length_cons]
      omega

/-- Wherever a walk goes on, the arrival is a time. -/
def KeepsTime (N : Network) : Prop :=
  ∀ u earlier edges, N.GreedyWalk (u :: earlier) edges →
    ∀ e ∈ N.outEdges u, total (edges.map (·.travelTime)) + e.travelTime < timeLimit

theorem KeepsTime.exists_extendWalk? (h : N.KeepsTime) (w : N.GreedyWalk (u :: earlier) edges)
    (ht : total (edges.map (·.travelTime)) = t) (choose : Chooser σ) (n : Nat) (s : σ) :
    ∃ walk, N.extendWalk? choose n u earlier t s = some walk := by
  induction n generalizing u earlier edges t s with
  | zero => exact ⟨u :: earlier, rfl⟩
  | succ n ih =>
    subst ht
    have hahead : N.TimelyAhead u (u :: earlier) (total (edges.map (·.travelTime))) :=
      fun e he _ => h u earlier edges w e he
    rcases extendWalk?_cases choose n s with ⟨_, hiff⟩ | ⟨e, he, f, hf, s', hiff⟩
    · exact ⟨_, (hiff _).2 ⟨hahead, rfl⟩⟩
    · obtain ⟨walk, hrest⟩ := ih (w.step he hf) (total_concat edges f) s'
      have htaken := h u earlier edges w f (List.mem_of_find?_eq_some hf)
      exact ⟨walk, (hiff walk).2 ⟨hahead, htaken, hrest⟩⟩

theorem KeepsTime.exists_nearestWalk? (h : N.KeepsTime) (choose : Chooser σ) (s : σ) :
    ∃ vertices, N.nearestWalk? choose s = some vertices := by
  obtain ⟨walk, hwalk⟩ := h.exists_extendWalk? .start rfl choose (N.dimension - 1) s
  exact ⟨walk.reverse, congrArg (Option.map List.reverse) hwalk⟩

/-- The walks of nearest neighbor, for all that can be chosen on the way. -/
def IsNearestWalk (N : Network) (vertices : List Nat) : Prop :=
  ∃ (σ : Type) (choose : Chooser σ) (s : σ), N.nearestWalk? choose s = some vertices

theorem IsNearestWalk.exists_greedyWalk (h : N.IsNearestWalk vertices) (hN : N.WellFormed) :
    ∃ visited edges, vertices = visited.reverse ∧ N.GreedyWalk visited edges ∧
      (visited.length = N.dimension ∨ N.Ends visited edges) := by
  obtain ⟨σ, choose, s, h⟩ := h
  obtain ⟨visited, hvisited, rfl⟩ := Option.map_eq_some_iff.1 h
  obtain ⟨edges, w, hlength⟩ := GreedyWalk.start.of_extendWalk? rfl hvisited
  refine ⟨visited, edges, rfl, w, hlength.imp_left fun h => ?_⟩
  rw [h, List.length_nil, Nat.zero_add]
  exact Nat.add_sub_cancel' (Nat.lt_of_le_of_lt (Nat.zero_le _) hN.source_lt)

namespace GreedyWalk

variable (w : N.GreedyWalk visited edges)

include w

theorem exists_head : ∃ u earlier, visited = u :: earlier := by
  cases w with
  | start => exact ⟨_, _, rfl⟩
  | step => exact ⟨_, _, rfl⟩

theorem nodup : visited.Nodup := by
  induction w with
  | start => exact List.nodup_singleton _
  | step _ he _ ih => exact List.nodup_cons.2 ⟨(mem_candidates.1 he).2.1, ih⟩

theorem getLast?_eq : visited.getLast? = some N.source := by
  induction w with
  | start => rfl
  | step _ _ _ ih => rw [List.getLast?_cons_cons, ih]

theorem mem_edges (hN : N.WellFormed) : ∀ e ∈ edges, e ∈ N.edges := by
  induction w with
  | start => exact fun e he => absurd he List.not_mem_nil
  | step _ _ hf ih =>
    intro e he
    rcases List.mem_append.1 he with he | he
    · exact ih e he
    · exact List.mem_singleton.1 he ▸ (mem_of_findEdge hN hf).1

theorem joins (hN : N.WellFormed) : N.Joins visited.reverse edges := by
  induction w with
  | start => exact ⟨rfl, rfl, fun e he => absurd he List.not_mem_nil⟩
  | @step u earlier edges e f w he hf ih =>
    obtain ⟨_, hsource, htarget⟩ := mem_of_findEdge hN hf
    obtain ⟨hsources, htargets, htaken⟩ := ih
    constructor
    case sources =>
      rw [List.map_append, hsources, List.reverse_cons (a := e.target), List.dropLast_concat,
        List.reverse_cons, List.dropLast_concat, List.map_singleton, hsource]
    case targets =>
      have hne : (u :: earlier).reverse ≠ [] := List.reverse_ne_nil_iff.2 (List.cons_ne_nil _ _)
      rw [List.map_append, htargets, List.reverse_cons (a := e.target),
        List.tail_append_of_ne_nil hne, List.map_singleton, htarget]
    case taken =>
      intro d hd
      rcases List.mem_append.1 hd with hd | hd
      · exact htaken d hd
      · obtain rfl := List.mem_singleton.1 hd
        rw [edgeTo_eq hN, hsource, htarget, hf]

theorem exists_in_time (hN : N.WellFormed) (hl : leg ∈ departInTurn 0 edges) :
    ∃ e ∈ N.edges, e.source = leg.tail.vertex ∧ e.target = leg.head.vertex ∧
      leg.tail.time + e.travelTime ≤ N.horizon := by
  induction w with
  | start => exact absurd hl List.not_mem_nil
  | @step u earlier edges e f w he hf ih =>
    rw [departInTurn_concat] at hl
    rcases List.mem_append.1 hl with hl | hl
    · exact ih hl
    · obtain rfl := List.mem_singleton.1 hl
      obtain ⟨_, hsource, htarget⟩ := mem_of_findEdge hN hf
      obtain ⟨hout, _, hle⟩ := mem_candidates.1 he
      obtain ⟨hmem, hu⟩ := hN.mem_outEdges.1 hout
      refine ⟨e, hmem, hu.trans hsource.symm, htarget.symm, ?_⟩
      rw [← Nat.zero_add (total _)] at hle
      exact hle

/-- A walk goes on only from vertices that it comes to before the horizon. -/
theorem dropLast_in_time (hl : leg ∈ (departInTurn 0 edges).dropLast) :
    leg.head.time ≤ N.horizon := by
  cases w with
  | start => exact absurd hl List.not_mem_nil
  | @step u earlier edges e f w he hf =>
    rw [departInTurn_concat, List.dropLast_concat] at hl
    have hle := head_le_of_mem_departInTurn 0 hl
    have hcandidate := (mem_candidates.1 he).2.2
    omega

theorem in_time_of_isFastest (hN : N.WellFormed) (hl : leg ∈ departInTurn 0 edges)
    (hfast : N.IsFastest leg) : leg.head.time ≤ N.horizon := by
  obtain ⟨e, he, hsource, htarget, hle⟩ := w.exists_in_time hN hl
  have hfaster := hfast e he hsource htarget
  rw [Leg.travelTime] at hfaster
  omega

theorem lt (hN : N.WellFormed) : ∀ v ∈ visited, v < N.dimension := by
  induction w with
  | start => exact fun v hv => List.mem_singleton.1 hv ▸ hN.source_lt
  | @step u earlier edges e f w he hf ih =>
    have hmem := (hN.mem_outEdges.1 (mem_candidates.1 he).1).1
    exact List.forall_mem_cons.2 ⟨(hN.edge_ok e hmem).2.1, ih⟩

theorem total_le : edges = [] ∨
    ∃ f ∈ edges, total (edges.map (·.travelTime)) ≤ N.horizon + f.travelTime := by
  cases w with
  | start => exact .inl rfl
  | @step u earlier edges e f w he hf =>
    refine .inr ⟨f, List.mem_append_right edges (List.mem_singleton_self f), ?_⟩
    have hcandidate := (mem_candidates.1 he).2.2
    rw [total_concat]
    omega

theorem fits (hN : N.WellFormed) (hkeeps : N.KeepsTime) : Tour.Fits N visited.reverse := by
  obtain ⟨u, earlier, rfl⟩ := w.exists_head
  have hhead : (u :: earlier).reverse.head? = some N.source := by
    rw [List.head?_reverse, w.getLast?_eq]
  have hlast : (u :: earlier).reverse.getLast? = some u := by
    rw [List.getLast?_reverse, List.head?_cons]
  intro all hall
  rw [(w.joins hN).tourEdges_eq hhead hlast, edgeTo_eq hN] at hall
  cases hback : N.findEdge u N.source with
  | none =>
    rw [hback] at hall
    cases hall
  | some e =>
    rw [hback] at hall
    obtain rfl := Except.ok.inj hall
    rw [total_concat]
    exact hkeeps u earlier edges w e (List.mem_of_find?_eq_some hback)

end GreedyWalk

/-- After the horizon there is room for two more edges. -/
def LeavesRoom (N : Network) : Prop :=
  ∀ e ∈ N.edges, N.horizon + 2 * e.travelTime < timeLimit

instance (N : Network) : Decidable N.LeavesRoom :=
  inferInstanceAs (Decidable (∀ e ∈ N.edges, N.horizon + 2 * e.travelTime < timeLimit))

theorem LeavesRoom.keepsTime (h : N.LeavesRoom) (hN : N.WellFormed) : N.KeepsTime := by
  intro u earlier edges w e he
  have hnext := h e (hN.mem_outEdges.1 he).1
  rcases w.total_le with rfl | ⟨f, hf, hle⟩
  · rw [List.map_nil, total_nil]
    omega
  · have hlast := h f (w.mem_edges hN f hf)
    omega

end Network

@[simp] theorem Tour.vertices_evaluate (N : Network) (vertices : List Nat) (algorithm : String) :
    (Tour.evaluate N vertices algorithm).vertices = vertices := by
  rw [Tour.evaluate]
  split <;> rfl

namespace NearestNeighbor

theorem isNearestWalk_of_walk? {h : NearestNeighbor} (hwalk : h.walk? N = some vertices) :
    N.IsNearestWalk vertices := by
  cases h with
  | deterministic => exact ⟨_, _, _, hwalk⟩
  | randomized seed => exact ⟨_, _, _, hwalk⟩

theorem exists_walk? (hkeeps : N.KeepsTime) (h : NearestNeighbor) :
    ∃ vertices, h.walk? N = some vertices := by
  cases h with
  | deterministic => exact hkeeps.exists_nearestWalk? _ _
  | randomized seed => exact hkeeps.exists_nearestWalk? _ _

/-- In a checked network nearest neighbor comes across nothing that does not exist. -/
theorem construct?_eq_some_iff (hN : N.WellFormed) {h : NearestNeighbor} {T : Tour} :
    h.construct? N = some T ↔ ∃ vertices, h.walk? N = some vertices ∧
      Tour.Fits N vertices ∧ Tour.evaluate N vertices h.name = T := by
  rw [construct?, Option.bind_eq_bind, Option.bind_eq_some_iff]
  refine exists_congr fun vertices => and_congr_right fun hwalk => ?_
  obtain ⟨visited, edges, rfl, w, _⟩ := (isNearestWalk_of_walk? hwalk).exists_greedyWalk hN
  rw [← Tour.evaluate?_eq_some_iff hN, if_pos]
  rw [decide_eq_true hN.source_lt, Bool.true_and, List.all_eq_true]
  intro v hv
  have hlt : v < N.dimension := w.lt hN v (List.mem_reverse.1 (List.mem_of_mem_take hv))
  rw [hN.isSound_of_lt hlt, Bool.true_and, List.all_eq_true]
  intro e he
  exact decide_eq_true (hN.edge_ok e (hN.mem_outEdges.1 he).1).2.1

theorem exists_construct? (hN : N.WellFormed) (hkeeps : N.KeepsTime) (h : NearestNeighbor) :
    ∃ vertices, N.IsNearestWalk vertices ∧
      h.construct? N = some (Tour.evaluate N vertices h.name) := by
  obtain ⟨vertices, hwalk⟩ := exists_walk? hkeeps h
  have hnearest := isNearestWalk_of_walk? hwalk
  obtain ⟨visited, edges, rfl, w, _⟩ := hnearest.exists_greedyWalk hN
  exact ⟨_, hnearest, (construct?_eq_some_iff hN).2 ⟨_, hwalk, w.fits hN hkeeps, rfl⟩⟩

end NearestNeighbor

/-- Nearest neighbor answers with one of its walks if it answers, which it does, for every seed,
where all its arrivals are times. All of its walks start at the source, repeat no vertex, and go
along edges. Each leg would arrive by the horizon by some edge between the same vertices. By the
edges that tours take, all vertices but the last one are reached by the horizon, and the last one is
as well unless another edge to it is faster. -/
theorem nearestWalk_in_time (hN : N.WellFormed) :
    (∀ (h : NearestNeighbor) T, h.construct? N = some T →
      ∃ vertices, N.IsNearestWalk vertices ∧ Tour.evaluate N vertices h.name = T) ∧
    (N.LeavesRoom → ∀ h : NearestNeighbor, ∃ vertices, N.IsNearestWalk vertices ∧
      h.construct? N = some (Tour.evaluate N vertices h.name)) ∧
    ∀ vertices, N.IsNearestWalk vertices →
      vertices.head? = some N.source ∧ vertices.Nodup ∧
      ∃ edges, N.Joins vertices edges ∧
        (∀ all, N.tourEdges vertices = .ok all → edges = all.dropLast) ∧
        (∀ leg ∈ departInTurn 0 edges, ∃ e ∈ N.edges, e.source = leg.tail.vertex ∧
          e.target = leg.head.vertex ∧ leg.tail.time + e.travelTime ≤ N.horizon) ∧
        (∀ leg ∈ (departInTurn 0 edges).dropLast, leg.head.time ≤ N.horizon) ∧
        (∀ leg ∈ departInTurn 0 edges, N.IsFastest leg → leg.head.time ≤ N.horizon) := by
  refine ⟨fun h T hT => ?_, fun hroom => ?_, fun vertices h => ?_⟩
  · obtain ⟨vertices, hwalk, _, heq⟩ := (NearestNeighbor.construct?_eq_some_iff hN).1 hT
    exact ⟨vertices, NearestNeighbor.isNearestWalk_of_walk? hwalk, heq⟩
  · exact NearestNeighbor.exists_construct? hN (hroom.keepsTime hN)
  · obtain ⟨visited, edges, rfl, w, _⟩ := h.exists_greedyWalk hN
    have hhead : visited.reverse.head? = some N.source := by
      rw [List.head?_reverse, w.getLast?_eq]
    refine ⟨hhead, List.nodup_reverse.2 w.nodup, edges, w.joins hN, ?_, ?_, ?_, ?_⟩
    · exact fun all hall => (w.joins hN).eq_dropLast hhead hall
    · exact fun leg hl => w.exists_in_time hN hl
    · exact fun leg hl => w.dropLast_in_time hl
    · exact fun leg hl => w.in_time_of_isFastest hN hl

theorem Network.nearestWalk?_triangle :
    triangle.nearestWalk? (fun _ hk s => (⟨0, hk⟩, s)) () = some [0, 1, 2] := by
  have hfirst : triangle.candidates 0 [0] 0 = [⟨0, 0, 1, 1⟩, ⟨4, 0, 2, 2⟩] :=
    List.mergeSort_of_pairwise (by decide)
  have hsecond : triangle.candidates 1 [1, 0] 1 = [⟨1, 1, 2, 1⟩] := List.mergeSort_singleton _
  change (triangle.extendWalk? _ 2 0 [] 0 ()).map List.reverse = _
  rw [extendWalk?, candidates?_eq_some_iff.2 ⟨by decide +kernel, hfirst⟩]
  change (triangle.extendWalk? _ 1 1 [0] 1 ()).map List.reverse = _
  rw [extendWalk?, candidates?_eq_some_iff.2 ⟨by decide +kernel, hsecond⟩]
  rfl

theorem nearestWalk_in_time_triangle : Network.triangle.WellFormed ∧
    Network.triangle.LeavesRoom ∧ Network.triangle.IsNearestWalk [0, 1, 2] ∧
    (∃ T, NearestNeighbor.deterministic.construct? Network.triangle = some T) ∧
    ∃ edges, Network.triangle.Joins [0, 1, 2] edges ∧
      ∀ leg ∈ (departInTurn 0 edges).dropLast, leg.head.time ≤ Network.triangle.horizon := by
  have hN := Network.wellFormed_of_ofArcs Network.ofArcs_triangle
  have hroom : Network.triangle.LeavesRoom := by decide +kernel
  have hwalk : Network.triangle.IsNearestWalk [0, 1, 2] :=
    ⟨_, _, _, Network.nearestWalk?_triangle⟩
  obtain ⟨_, hanswers, hwalks⟩ := nearestWalk_in_time hN
  obtain ⟨_, _, hconstruct⟩ := hanswers hroom .deterministic
  obtain ⟨_, _, edges, hjoins, _, _, hbefore, _⟩ := hwalks _ hwalk
  exact ⟨hN, hroom, hwalk, ⟨_, hconstruct⟩, edges, hjoins, hbefore⟩

def Network.twoWays : Network :=
  { Network.withArcs "two ways" 2 0 [⟨0, 1, 9⟩, ⟨0, 1, 1⟩, ⟨1, 0, 1⟩] with horizon := 5 }

theorem Network.ofArcs_twoWays : Network.ofArcs "two ways" 2 0
    [⟨0, 1, 9⟩, ⟨0, 1, 1⟩, ⟨1, 0, 1⟩] (some 5) = .ok Network.twoWays := rfl

theorem Network.nearestWalk?_twoWays :
    twoWays.nearestWalk? (fun _ hk s => (⟨0, hk⟩, s)) () = some [0, 1] := by
  have hfast : twoWays.candidates 0 [0] 0 = [⟨1, 0, 1, 1⟩] := List.mergeSort_singleton _
  change (twoWays.extendWalk? _ 1 0 [] 0 ()).map List.reverse = _
  rw [extendWalk?, candidates?_eq_some_iff.2 ⟨by decide +kernel, hfast⟩]
  rfl

/-- The fast edge makes nearest neighbor go to the vertex, and the slow one takes nine units of
time, when the horizon is five. -/
theorem nearestWalk_too_late : Network.twoWays.WellFormed ∧
    NearestNeighbor.deterministic.construct? Network.twoWays =
      some ⟨[0, 1], some 10, 10, false, "NearestNeighbor"⟩ ∧
    Network.twoWays.IsNearestWalk [0, 1] ∧ ∃ edges, Network.twoWays.Joins [0, 1] edges ∧
      ∃ leg ∈ departInTurn 0 edges, Network.twoWays.horizon < leg.head.time := by
  have hN := Network.wellFormed_of_ofArcs Network.ofArcs_twoWays
  have hfits : Tour.Fits Network.twoWays [0, 1] := by
    intro edges hedges
    obtain rfl := Except.ok.inj hedges
    decide
  have hjoins : Network.twoWays.Joins [0, 1] [⟨0, 0, 1, 9⟩] := by
    refine ⟨rfl, rfl, fun e he => ?_⟩
    obtain rfl := List.mem_singleton.1 he
    rfl
  refine ⟨hN, ?_, ⟨_, _, _, Network.nearestWalk?_twoWays⟩, _, hjoins, ?_⟩
  · exact (NearestNeighbor.construct?_eq_some_iff hN).2
      ⟨_, Network.nearestWalk?_twoWays, hfits, rfl⟩
  · exact ⟨_, List.mem_singleton_self _, by decide⟩

end TourPricing
