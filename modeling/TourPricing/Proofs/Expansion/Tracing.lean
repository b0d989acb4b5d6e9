import TourPricing.Proofs.Departure
import TourPricing.Proofs.Expansion.Reachability

namespace TourPricing

variable {N : Network} {E : Expansion} {e : Edge} {edges : List Edge} {leg : Leg} {legs : List Leg}
  {vertices rest : List Nat} {u v t : Nat} {r : Route}

namespace Network

theorem mem_of_findEdge (hN : N.WellFormed) (h : N.findEdge u v = some e) :
    e ∈ N.edges ∧ e.source = u ∧ e.target = v := by
  obtain ⟨he, hs⟩ := hN.mem_outEdges.1 (List.mem_of_find?_eq_some h)
  have ht := List.find?_some h
  exact ⟨he, hs, beq_iff_eq.1 ht⟩

theorem leadingTo_of_forall (h : ∀ e ∈ edges, e ∈ N.edges) :
    N.leadingTo v (edges.map (·.id)) = .ok (edges.find? (·.target == v)) := by
  induction edges with
  | nil => rfl
  | cons e rest ih =>
    rw [List.map_cons, leadingTo, N.edge?_of_mem (h e List.mem_cons_self), List.find?_cons]
    by_cases ht : e.target = v
    · simp [ht]
    · simp only [ht, if_false, beq_eq_false_iff_ne.2 ht]
      exact ih fun f hf => h f (List.mem_cons_of_mem _ hf)

/-- In a checked network an edge is found or missing; no edge is listed that does not exist. -/
theorem edgeTo_eq (hN : N.WellFormed) :
    N.edgeTo u v = match N.findEdge u v with
      | some e => .ok e
      | none => .error (.missingEdge u v) := by
  have hmem : ∀ e ∈ edgesFrom N.edges u, e ∈ N.edges := by
    intro e he
    exact Array.mem_toList_iff.1 (List.mem_filter.1 he).1
  rw [edgeTo, hN.outNumbers_eq, leadingTo_of_forall hmem, findEdge, hN.outEdges_eq]
  cases (edgesFrom N.edges u).find? (·.target == v) <;> rfl

theorem mem_of_edgeTo (hN : N.WellFormed) (h : N.edgeTo u v = .ok e) :
    e ∈ N.edges ∧ e.source = u ∧ e.target = v := by
  rw [edgeTo_eq hN] at h
  split at h
  · rename_i f hf
    obtain rfl := Except.ok.inj h
    exact mem_of_findEdge hN hf
  · cases h

/-- The edges of a closed walk from the source through some vertices. -/
structure Circuit (N : Network) (rest : List Nat) (edges : List Edge) : Prop where
  mem : ∀ e ∈ edges, e ∈ N.edges
  sources : edges.map (·.source) = N.source :: rest
  targets : edges.map (·.target) = rest ++ [N.source]

theorem exists_circuit (hN : N.WellFormed) (h : N.tourEdges vertices = .ok edges) :
    ∃ rest, vertices = N.source :: rest ∧ N.Circuit rest edges := by
  rw [tourEdges] at h
  split at h
  · rename_i hhead
    obtain ⟨rest, rfl⟩ := List.head?_eq_some_iff.1 hhead
    have hsteps := (forall₂_of_mapM_ok h).imp fun (step : Nat × Nat) e he =>
      mem_of_edgeTo (u := step.1) (v := step.2) hN he
    refine ⟨rest, rfl, ?_, ?_, ?_⟩
    · exact forall_right_of_forall₂ hsteps fun _ _ he => he.1
    · rw [← map_eq_of_forall₂ hsteps fun step e he => he.2.1.symm]
      exact List.map_fst_zip (by simp)
    · rw [← map_eq_of_forall₂ hsteps fun step e he => he.2.2.symm]
      exact List.map_snd_zip (by simp)
  · cases h

end Network

/-- Edges taken one right after another, the first one at a time. -/
def departInTurn : (t : Nat) → List Edge → List Leg
  | _, [] => []
  | t, e :: rest => e.departAt t :: departInTurn (t + e.travelTime) rest

theorem traceFrom_eq_ok_iff : E.traceFrom t edges = .ok legs ↔ departInTurn t edges = legs ∧
    ∀ leg ∈ legs, leg.head.time ≤ E.horizon ∧ leg.head.time < timeLimit := by
  induction edges generalizing t legs with
  | nil =>
    rw [Expansion.traceFrom, departInTurn, Except.ok.injEq]
    constructor
    · rintro rfl
      exact ⟨rfl, fun leg hl => absurd hl List.not_mem_nil⟩
    · exact fun h => h.1
  | cons e rest ih =>
    constructor
    · intro h
      obtain ⟨first, others, hfirst, hle, hrest, rfl⟩ := Expansion.exists_of_traceFrom_cons h
      obtain ⟨rfl, hlt⟩ := Edge.departAt?_eq_some_iff.1 hfirst
      obtain ⟨hturn, hall⟩ := ih.1 hrest
      exact ⟨congrArg _ hturn, List.forall_mem_cons.2 ⟨⟨hle, hlt⟩, hall⟩⟩
    · rintro ⟨rfl, hall⟩
      obtain ⟨⟨hle, hlt⟩, hall⟩ := List.forall_mem_cons.1 hall
      have hrest : E.traceFrom (e.departAt t).head.time rest = _ := ih.2 ⟨rfl, hall⟩
      rw [Expansion.traceFrom, Edge.departAt?_eq_some_iff.2 ⟨rfl, hlt⟩]
      dsimp only
      rw [if_neg (Nat.not_lt.2 hle), hrest]
      rfl

theorem Expansion.trace_eq_ok_iff : E.trace vertices = .ok r ↔
    ∃ edges, E.network.tourEdges vertices = .ok edges ∧ departInTurn 0 edges = r.legs ∧
      ∀ leg ∈ r.legs, leg.head.time ≤ E.horizon ∧ leg.head.time < timeLimit := by
  constructor
  · intro h
    obtain ⟨edges, hedges, h⟩ := exists_of_bind_ok h
    obtain ⟨legs, hlegs, h⟩ := exists_of_bind_ok h
    obtain rfl := Except.ok.inj h
    exact ⟨edges, hedges, traceFrom_eq_ok_iff.1 hlegs⟩
  · rintro ⟨edges, hedges, hlegs⟩
    rw [trace, hedges]
    change (E.traceFrom 0 edges >>= fun legs => Except.ok (Route.mk legs)) = .ok r
    rw [traceFrom_eq_ok_iff.2 hlegs]
    rfl

section

variable (t edges)

@[simp] theorem length_departInTurn : (departInTurn t edges).length = edges.length := by
  induction edges generalizing t with
  | nil => rfl
  | cons e rest ih => rw [departInTurn, List.length_cons, ih, List.length_cons]

theorem departInTurn_concat (e : Edge) :
    departInTurn t (edges ++ [e]) =
      departInTurn t edges ++ [e.departAt (t + total (edges.map (·.travelTime)))] := by
  induction edges generalizing t with
  | nil => rfl
  | cons f rest ih =>
    rw [List.cons_append, departInTurn, ih, departInTurn, List.map_cons, total_cons, Nat.add_assoc]
    rfl

@[simp] theorem tails_departInTurn :
    (departInTurn t edges).map (·.tail.vertex) = edges.map (·.source) := by
  induction edges generalizing t with
  | nil => rfl
  | cons e rest ih => rw [departInTurn, List.map_cons, ih, List.map_cons, Edge.departAt]

@[simp] theorem heads_departInTurn :
    (departInTurn t edges).map (·.head.vertex) = edges.map (·.target) := by
  induction edges generalizing t with
  | nil => rfl
  | cons e rest ih => rw [departInTurn, List.map_cons, ih, List.map_cons, Edge.departAt]

theorem exists_of_mem_departInTurn (h : leg ∈ departInTurn t edges) :
    ∃ e ∈ edges, ∃ t', t ≤ t' ∧ e.departAt t' = leg := by
  induction edges generalizing t with
  | nil => exact nomatch h
  | cons e rest ih =>
    rcases List.mem_cons.1 h with rfl | h
    · exact ⟨e, List.mem_cons_self, t, Nat.le_refl t, rfl⟩
    · obtain ⟨f, hf, t', ht, hleg⟩ := ih _ h
      exact ⟨f, List.mem_cons_of_mem _ hf, t', Nat.le_of_add_right_le ht, hleg⟩

end

theorem departInTurn_isChain (h : edges.IsChain fun a b => a.target = b.source) :
    (departInTurn t edges).IsChain fun a b => a.head = b.tail := by
  induction edges generalizing t with
  | nil => exact .nil
  | cons a rest ih =>
    cases rest with
    | nil => exact .singleton _
    | cons b rest =>
      obtain ⟨hab, hrest⟩ := List.isChain_cons_cons.1 h
      apply List.isChain_cons_cons.2
      constructor
      · rw [Edge.departAt, Edge.departAt, hab]
      · exact ih hrest

namespace Network.Circuit

theorem isChain (h : N.Circuit rest edges) : edges.IsChain fun a b => a.target = b.source := by
  have hshift : edges.map (·.target) = (edges.map (·.source)).tail ++ [N.source] := by
    rw [h.targets, h.sources, List.tail_cons]
  generalize N.source = last at hshift
  clear h
  induction edges with
  | nil => exact .nil
  | cons a rest ih =>
    cases rest with
    | nil => exact .singleton a
    | cons b rest =>
      obtain ⟨hab, hrest⟩ := List.cons.inj hshift
      exact List.isChain_cons_cons.2 ⟨hab, ih hrest⟩

theorem exists_cons (h : N.Circuit rest edges) :
    ∃ first others, edges = first :: others ∧ first.source = N.source ∧
      others.map (·.source) = rest := by
  cases edges with
  | nil => exact nomatch h.sources
  | cons first others =>
    obtain ⟨hfirst, hothers⟩ := List.cons.inj h.sources
    exact ⟨first, others, rfl, hfirst, hothers⟩

end Network.Circuit

namespace Expansion

def Contains (E : Expansion) (leg : Leg) : Prop :=
  leg ∈ (E.departuresOf? leg.edge).getD []

instance (leg : Leg) : Decidable (E.Contains leg) :=
  inferInstanceAs (Decidable (leg ∈ (E.departuresOf? leg.edge).getD []))

theorem contains_iff_exists : E.Contains leg ↔ ∃ e ∈ E.network.edges, leg ∈ E.departuresOf e := by
  rw [Contains, departuresOf?]
  constructor
  · intro h
    cases he : E.network.edge? leg.edge with
    | none =>
      rw [he] at h
      exact nomatch h
    | some e =>
      rw [he] at h
      exact ⟨e, Network.mem_edges_of_edge? he, h⟩
  · rintro ⟨e, he, hl⟩
    obtain ⟨_, _, _, rfl⟩ := mem_departuresOf.1 hl
    rw [Edge.departAt, E.network.edge?_of_mem he]
    exact hl

/-- A route that the expansion contains. It leaves the source once, and comes back to it once. -/
structure Inside (E : Expansion) (r : Route) : Prop where
  contains : ∀ leg ∈ r.legs, E.Contains leg
  leaves : ∀ leg ∈ r.legs, leg.tail.vertex = E.network.source → leg.tail.time = 0
  passes : ∀ leg ∈ r.legs.dropLast, leg.head.vertex ≠ E.network.source
  returns : ∀ leg ∈ r.legs.getLast?, leg.head.vertex = E.network.source

section

variable (hN : E.network.WellFormed)

include hN

theorem contains_iff : E.Contains leg ↔ leg.tail ∈ E.stops ∧ leg ∈ E.outgoing leg.tail :=
  contains_iff_exists.trans (mem_outgoing_iff hN).symm

theorem time_eq_zero_of_contains (h : E.Contains leg) (hs : leg.tail.vertex = E.network.source) :
    leg.tail.time = 0 := by
  have ht := hN.not_terminal ((contains_iff hN).1 h).2
  exact Network.isTerminal_eq_false_iff.1 ht hs

theorem Walk.contains {may : List Leg → Leg → Prop} {s : Stop} (w : E.Walk may legs s)
    (hl : leg ∈ legs) : E.Contains leg := by
  obtain ⟨before, after, rfl⟩ := List.append_of_mem hl
  obtain ⟨t, wt, ho, _⟩ := w.split
  have htail := hN.tail_eq ho
  rw [contains_iff hN, htail]
  exact ⟨wt.mem_stops hN, ho⟩

section

variable (h : E.trace vertices = .ok r)

include h

theorem exists_of_trace : ∃ rest edges, vertices = E.network.source :: rest ∧
    E.network.Circuit rest edges ∧ r.legs = departInTurn 0 edges ∧
    ∀ leg ∈ r.legs, leg.head.time ≤ E.horizon ∧ leg.head.time < timeLimit := by
  obtain ⟨edges, hedges, hlegs, hall⟩ := trace_eq_ok_iff.1 h
  obtain ⟨rest, hvertices, hcircuit⟩ := Network.exists_circuit hN hedges
  exact ⟨rest, edges, hvertices, hcircuit, hlegs.symm, hall⟩

theorem isConnected_of_trace : r.isConnected = true := by
  obtain ⟨rest, edges, _, hcircuit, hlegs, _⟩ := exists_of_trace hN h
  apply Route.isConnected_iff.2
  rw [hlegs]
  exact departInTurn_isChain hcircuit.isChain

theorem head?_of_trace : r.legs.head?.map (·.tail) = some E.network.start := by
  obtain ⟨rest, edges, _, hcircuit, hlegs, _⟩ := exists_of_trace hN h
  obtain ⟨first, others, rfl, hsource, _⟩ := hcircuit.exists_cons
  rw [hlegs, departInTurn, List.head?_cons, Option.map_some, Edge.departAt, hsource]
  rfl

theorem heads_of_trace : r.legs.map (·.head.vertex) = vertices.tail ++ [E.network.source] := by
  obtain ⟨rest, edges, rfl, hcircuit, hlegs, _⟩ := exists_of_trace hN h
  rw [hlegs, heads_departInTurn, hcircuit.targets, List.tail_cons]

theorem mem_tail_iff_of_trace {v : Nat} : v ∈ vertices.tail ↔
    ∃ leg ∈ r.legs, leg.tail.vertex = v ∧ 0 < leg.tail.time := by
  obtain ⟨rest, edges, rfl, hcircuit, hlegs, _⟩ := exists_of_trace hN h
  obtain ⟨first, others, rfl, _, hothers⟩ := hcircuit.exists_cons
  have hpos := (hN.edge_ok first (hcircuit.mem first List.mem_cons_self)).2.2.2
  rw [hlegs, departInTurn, List.tail_cons, ← hothers,
    ← tails_departInTurn others (0 + first.travelTime)]
  constructor
  · intro hv
    obtain ⟨leg, hl, hleg⟩ := List.mem_map.1 hv
    obtain ⟨_, _, t, ht, rfl⟩ := exists_of_mem_departInTurn _ _ hl
    refine ⟨_, List.mem_cons_of_mem _ hl, hleg, ?_⟩
    rw [Nat.zero_add] at ht
    exact Nat.lt_of_lt_of_le hpos ht
  · rintro ⟨leg, hl, hleg, htime⟩
    rcases List.mem_cons.1 hl with rfl | hl
    · exact absurd htime (Nat.lt_irrefl 0)
    · exact List.mem_map.2 ⟨leg, hl, hleg⟩

theorem exists_walk_of_trace (hs : E.network.source ∉ vertices.tail) :
    ∃ s, E.Walk (fun _ _ => True) r.legs s := by
  have hall := (trace_eq_ok_iff.1 h).choose_spec.2.2
  have hstart : ∀ leg ∈ r.legs.head?, leg.tail = E.network.start := by
    intro leg hl
    have hmap := head?_of_trace hN h
    rw [hl, Option.map_some] at hmap
    exact Option.some.inj hmap
  apply Walk.of_chain (Route.isConnected_iff.1 (isConnected_of_trace hN h)) hstart
  · intro leg hl
    obtain ⟨e, he, hleg⟩ := (isTimely_of_trace h leg hl).1
    refine hN.mem_legsFrom.2 ⟨Network.isTerminal_eq_false_iff.2 fun hv => ?_, e, he, ?_, hleg,
      (hall leg hl).1⟩
    · by_contra htime
      exact hs ((mem_tail_iff_of_trace hN h).2 ⟨leg, hl, hv, Nat.pos_of_ne_zero htime⟩)
    · exact congrArg (·.tail.vertex) hleg
  · exact fun _ _ _ _ => trivial

theorem inside_of_trace (hs : E.network.source ∉ vertices.tail) : E.Inside r := by
  obtain ⟨s, w⟩ := exists_walk_of_trace hN h hs
  have hheads := heads_of_trace hN h
  constructor
  case contains => exact fun leg hl => w.contains hN hl
  case leaves => exact fun leg hl => time_eq_zero_of_contains hN (w.contains hN hl)
  case passes =>
    intro leg hl hv
    have hmem : leg.head.vertex ∈ (r.legs.map (·.head.vertex)).dropLast := by
      rw [← List.map_dropLast]
      exact List.mem_map.2 ⟨leg, hl, rfl⟩
    rw [hheads, List.dropLast_concat, hv] at hmem
    exact hs hmem
  case returns =>
    intro leg hl
    have hlast : (r.legs.map (·.head.vertex)).getLast? = some leg.head.vertex := by
      rw [List.getLast?_map, hl]
      rfl
    rw [hheads, List.getLast?_concat] at hlast
    exact (Option.some.inj hlast).symm

/-- A traced tour stays inside the expansion if and only if it does not come to the source on its
way. -/
theorem forall_contains_iff_of_trace :
    (∀ leg ∈ r.legs, E.Contains leg) ↔ E.network.source ∉ vertices.tail := by
  constructor
  · intro hall hs
    obtain ⟨leg, hl, hv, htime⟩ := (mem_tail_iff_of_trace hN h).1 hs
    exact Nat.ne_of_gt htime (time_eq_zero_of_contains hN (hall leg hl) hv)
  · exact fun hs => (inside_of_trace hN h hs).contains

end

end

end Expansion

end TourPricing
