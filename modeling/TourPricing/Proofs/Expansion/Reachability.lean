import Mathlib.Data.List.Perm.Lattice
import Mathlib.Data.Set.Card
import TourPricing.Network.Build
import TourPricing.Proofs.Lists
import TourPricing.Proofs.Walk

namespace TourPricing

variable {N : Network} {E : Expansion} {horizon : Nat} {s : Stop} {leg : Leg} {e : Edge}

/-- A sweep that nobody stops: the stops of a frontier are settled in order until none waits. -/
inductive Frontier.Sweeps {β σ : Type} (settle : Stop → β → Frontier β → σ → Frontier β × σ) :
    Frontier β → σ → σ → Prop
  | done {acc : σ} : Sweeps settle ⟨[]⟩ acc acc
  | next {s : Stop} {b : β} {rest : List (Stop × β)} {acc result : σ} :
    Sweeps settle (settle s b ⟨rest⟩ acc).1 (settle s b ⟨rest⟩ acc).2 result →
    Sweeps settle ⟨(s, b) :: rest⟩ acc result

namespace Network

theorem edges_sorted (N : Network) : N.edges.toList.Pairwise fun e f => e.id < f.id := by
  have hids : N.edges.toList.map (·.id) = List.range N.edges.size := by
    refine List.ext_getElem (by simp) fun i hi _ => ?_
    simp only [List.getElem_map, Array.getElem_toList, List.getElem_range]
    exact N.numbered i (by simpa using hi)
  exact List.pairwise_map.1 (hids ▸ List.pairwise_lt_range)

theorem edges_nodup (N : Network) : N.edges.toList.Nodup := by
  apply N.edges_sorted.imp
  rintro e f hlt rfl
  exact Nat.lt_irrefl _ hlt

theorem eq_of_id_eq {e f : Edge} (he : e ∈ N.edges) (hf : f ∈ N.edges) (h : e.id = f.id) :
    e = f := by
  have hnumber := N.edge?_of_mem he
  rw [h, N.edge?_of_mem hf] at hnumber
  exact (Option.some.inj hnumber).symm

/-- A walk out of the source at time zero arrives at a stop. It does not leave the source again. -/
inductive Reaches (N : Network) : Stop → Prop
  | start : Reaches N ⟨N.source, 0⟩
  | ride {s : Stop} {e : Edge} : Reaches N s → e ∈ N.edges → e.source = s.vertex →
    (s.vertex = N.source → s.time = 0) → Reaches N ⟨e.target, s.time + e.travelTime⟩

theorem isTerminal_eq_false_iff : N.isTerminal s = false ↔ (s.vertex = N.source → s.time = 0) := by
  rw [← Bool.not_eq_true, isTerminal_iff, not_and, Nat.not_lt, Nat.le_zero]

/-- What a sweep has settled so far: everything known to it can be reached, and the stops are
settled in order. -/
structure Settling (N : Network) (horizon : Nat) (F : Frontier Unit) (settled : List Stop) :
    Prop where
  reaches : ∀ s, F.Known settled s → s.time ≤ horizon ∧ N.Reaches s
  sorted : settled.Pairwise fun a b => b.before a = true
  ahead : ∀ s ∈ settled, ∀ entry ∈ F.entries, s.before entry.1 = true

namespace WellFormed

theorem reaches_head (h : N.WellFormed) (hs : N.Reaches s) (hl : leg ∈ N.legsFrom horizon s) :
    leg.head.time ≤ horizon ∧ N.Reaches leg.head := by
  obtain ⟨ht, e, he, hes, rfl, hle⟩ := h.mem_legsFrom.1 hl
  exact ⟨hle, .ride hs he hes (isTerminal_eq_false_iff.1 ht)⟩

theorem vertex_lt (h : N.WellFormed) (hs : N.Reaches s) : s.vertex < N.dimension := by
  cases hs with
  | start => exact h.source_lt
  | ride _ he _ _ => exact (h.edge_ok _ he).2.1

theorem settling_start : N.Settling horizon (.single N.start ()) [] := by
  refine ⟨fun s hs => ?_, .nil, fun s hs => nomatch hs⟩
  rcases hs with hs | hs
  · exact nomatch hs
  · have hmem := Frontier.mem_of_get? (Option.eq_some_of_isSome hs)
    obtain rfl := congrArg Prod.fst (List.mem_singleton.1 hmem)
    exact ⟨Nat.zero_le _, .start⟩

theorem Settling.settle (h : N.WellFormed) {rest : List (Stop × Unit)} {settled : List Stop}
    (hx : N.Settling horizon ⟨(s, ()) :: rest⟩ settled)
    (hord : (N.settleStop horizon s () ⟨rest⟩ settled).1.Ordered fun t =>
      t.Within N.dimension horizon ∧ s.before t = true) :
    N.Settling horizon (N.settleStop horizon s () ⟨rest⟩ settled).1
      (N.settleStop horizon s () ⟨rest⟩ settled).2 := by
  have hs : s.time ≤ horizon ∧ N.Reaches s :=
    hx.reaches s (.inr (by rw [Frontier.get?_cons, if_pos rfl]; rfl))
  have hfirst : ∀ u ∈ settled, u.before s = true := fun u hu =>
    hx.ahead u hu (s, ()) List.mem_cons_self
  refine ⟨fun t ht => ?_, List.pairwise_cons.2 ⟨hfirst, hx.sorted⟩, fun u hu entry he => ?_⟩
  · rcases ht with ht | ht
    · rcases List.mem_cons.1 ht with rfl | ht
      · exact hs
      · exact hx.reaches t (.inl ht)
    · rcases (Frontier.isSome_get?_foldl_set _ _ t).1 ht with ht | ⟨leg, hl, rfl⟩
      · refine hx.reaches t (.inr ?_)
        rw [Frontier.get?_cons]
        split
        · rfl
        · exact ht
      · exact h.reaches_head hs.2 hl
  · have hsu := (hord.all entry he).2
    rcases List.mem_cons.1 hu with rfl | hu
    · exact hsu
    · exact Stop.before_trans (hfirst u hu) hsu

/-- The sweep over the stops comes to an end, and settles in order what can be reached. -/
theorem sweeps_reachable (h : N.WellFormed) (horizon : Nat) :
    Frontier.Sweeps (N.settleStop horizon) (.single N.start ()) [] (N.reachable horizon).reverse ∧
      ∃ E : Frontier Unit, N.Settling horizon E (N.reachable horizon).reverse := by
  obtain ⟨E, hE, hsweeps, hsettling⟩ := Frontier.sweep_empties (N.settleStop horizon)
    (I := fun F settled =>
      (∀ result, Frontier.Sweeps (N.settleStop horizon) F settled result →
        Frontier.Sweeps (N.settleStop horizon) (.single N.start ()) [] result) ∧
      N.Settling horizon F settled)
    (fun s _ rest settled _ hord hx => by
      have hord' : (N.settleStop horizon s () ⟨rest⟩ settled).1.Ordered fun t =>
          t.Within N.dimension horizon ∧ s.before t = true :=
        hord.foldl_set fun leg hl => ⟨h.head_within hl, h.before_head hl⟩
      exact ⟨hord', fun result hr => hx.1 result (.next hr), Settling.settle h hx.2 hord'⟩)
    (Frontier.Ordered.single h.start_within ()) ⟨fun _ hr => hr, settling_start⟩
  rw [← h.sweepLimit_eq] at hsweeps hsettling
  rw [reachable, List.reverse_reverse]
  obtain ⟨entries⟩ := E
  obtain rfl : entries = [] := hE
  exact ⟨hsweeps _ .done, _, hsettling⟩

end WellFormed

end Network

namespace Expansion

theorem mem_departuresOf : leg ∈ E.departuresOf e ↔
    ∃ t ∈ E.departures e.source, t + e.travelTime ≤ E.horizon ∧ e.departAt t = leg := by
  rw [departuresOf, List.mem_filter, List.mem_map, decide_eq_true_eq]
  constructor
  · rintro ⟨⟨t, ht, rfl⟩, hle⟩
    exact ⟨t, ht, hle, rfl⟩
  · rintro ⟨t, ht, hle, rfl⟩
    exact ⟨⟨t, ht, rfl⟩, hle⟩

section

variable (h : E.network.WellFormed)

include h

/-- Exactly the stops that can be reached by the horizon are settled. -/
theorem mem_stops_iff : s ∈ E.stops ↔ s.time ≤ E.horizon ∧ E.network.Reaches s := by
  rw [E.stops_eq]
  constructor
  · intro hs
    obtain ⟨_, F, hx⟩ := h.sweeps_reachable E.horizon
    exact hx.reaches s (.inl (List.mem_reverse.2 hs))
  · rintro ⟨ht, hs⟩
    induction hs with
    | start => exact h.reachable_closed.1
    | @ride s e _ he hes hsource ih =>
      have hmem := ih (Nat.le_of_add_right_le ht)
      have hleg : e.departAt s.time ∈ E.network.legsFrom E.horizon s :=
        h.mem_legsFrom.2 ⟨Network.isTerminal_eq_false_iff.2 hsource, e, he, hes, rfl, ht⟩
      exact h.reachable_closed.2 s hmem _ hleg

theorem stops_sorted : E.stops.Pairwise fun a b => a.before b = true := by
  obtain ⟨_, F, hx⟩ := h.sweeps_reachable E.horizon
  rw [E.stops_eq]
  exact List.pairwise_reverse.1 hx.sorted

theorem stops_nodup : E.stops.Nodup := by
  refine (stops_sorted h).imp fun {a b} hab heq => ?_
  rw [heq, Stop.before_iff] at hab
  omega

theorem mem_departures {v t : Nat} : t ∈ E.departures v ↔
    t ≤ E.horizon ∧ E.network.Reaches ⟨v, t⟩ ∧ (v = E.network.source → t = 0) := by
  rw [departures, List.mem_map]
  constructor
  · rintro ⟨s, hs, rfl⟩
    obtain ⟨hmem, hcond⟩ := List.mem_filter.1 hs
    rw [Bool.and_eq_true, beq_iff_eq, Bool.not_eq_true', Network.isTerminal_eq_false_iff] at hcond
    obtain ⟨rfl, hsource⟩ := hcond
    obtain ⟨hle, hreach⟩ := (mem_stops_iff h).1 hmem
    exact ⟨hle, hreach, hsource⟩
  · rintro ⟨hle, hreach, hsource⟩
    refine ⟨⟨v, t⟩, List.mem_filter.2 ⟨(mem_stops_iff h).2 ⟨hle, hreach⟩, ?_⟩, rfl⟩
    rw [Bool.and_eq_true, beq_iff_eq, Bool.not_eq_true', Network.isTerminal_eq_false_iff]
    exact ⟨rfl, hsource⟩

theorem departures_sorted (v : Nat) : (E.departures v).Pairwise (· < ·) := by
  rw [departures, List.pairwise_map]
  refine List.Pairwise.imp_of_mem (fun {a b} ha hb hab => ?_) ((stops_sorted h).filter _)
  have hv {s : Stop} (hs : s ∈ E.stops.filter fun s =>
      s.vertex == v && !E.network.isTerminal s) : s.vertex = v := by
    have hcond := (List.mem_filter.1 hs).2
    rw [Bool.and_eq_true, beq_iff_eq] at hcond
    exact hcond.1
  rw [Stop.before_iff, hv ha, hv hb] at hab
  omega

theorem departures_source : E.departures E.network.source = [0] := by
  have hmem (t : Nat) : t ∈ E.departures E.network.source ↔ t ∈ [0] := by
    rw [mem_departures h, List.mem_singleton]
    constructor
    · exact fun ht => ht.2.2 rfl
    · rintro rfl
      exact ⟨Nat.zero_le _, .start, fun _ => rfl⟩
  have hnodup : (E.departures E.network.source).Nodup :=
    (departures_sorted h _).imp Nat.ne_of_lt
  exact List.perm_singleton.1 ((List.perm_ext_iff_of_nodup hnodup (List.nodup_singleton 0)).2 hmem)

theorem departuresOf_sorted (e : Edge) :
    (E.departuresOf e).Pairwise fun a b => a.tail.time < b.tail.time := by
  rw [departuresOf]
  refine List.Pairwise.filter _ (List.pairwise_map.2 ?_)
  exact departures_sorted h e.source

theorem departuresOf_eq_takeWhile (e : Edge) : E.departuresOf e =
    ((E.departures e.source).takeWhile fun t => t + e.travelTime ≤ E.horizon).map e.departAt := by
  rw [departuresOf, List.filter_map]
  refine congrArg _ (filter_eq_takeWhile (departures_sorted h e.source) fun t u htu hu => ?_)
  have hle : u + e.travelTime ≤ E.horizon := of_decide_eq_true hu
  exact decide_eq_true (Nat.le_trans (Nat.add_le_add_right (Nat.le_of_lt htu) _) hle)

/-- The legs that leave the stops are the departures of the edges. -/
theorem mem_outgoing_iff : leg.tail ∈ E.stops ∧ leg ∈ E.outgoing leg.tail ↔
    ∃ e ∈ E.network.edges, leg ∈ E.departuresOf e := by
  simp only [mem_departuresOf, mem_departures h, mem_stops_iff h]
  constructor
  · rintro ⟨⟨htime, hreach⟩, hout⟩
    obtain ⟨hterminal, e, he, hes, hleg, hle⟩ := h.mem_legsFrom.1 hout
    have hsource := Network.isTerminal_eq_false_iff.1 hterminal
    rw [← hleg] at hle
    rw [← hes] at hsource
    have htail : (⟨e.source, leg.tail.time⟩ : Stop) = leg.tail := by rw [hes]
    exact ⟨e, he, leg.tail.time, ⟨htime, htail ▸ hreach, hsource⟩, hle, hleg⟩
  · rintro ⟨e, he, t, ⟨htime, hreach, hsource⟩, hle, rfl⟩
    have hterminal : E.network.isTerminal ⟨e.source, t⟩ = false :=
      Network.isTerminal_eq_false_iff.2 hsource
    exact ⟨⟨htime, hreach⟩, h.mem_legsFrom.2 ⟨hterminal, e, he, rfl, rfl, hle⟩⟩

theorem exists_outgoing_iff : (∃ s ∈ E.stops, leg ∈ E.outgoing s) ↔
    ∃ e ∈ E.network.edges, leg ∈ E.departuresOf e := by
  rw [← mem_outgoing_iff h]
  constructor
  · rintro ⟨s, hs, hl⟩
    obtain rfl := h.tail_eq hl
    exact ⟨hs, hl⟩
  · exact fun hl => ⟨leg.tail, hl⟩

theorem outgoing_nodup (s : Stop) : (E.outgoing s).Nodup := by
  rw [outgoing, Network.legsFrom]
  split
  · exact .nil
  · rw [h.outEdges_eq, edgesFrom]
    refine List.Nodup.filter _ (List.Nodup.map_on (fun e he f hf hef => ?_)
      (E.network.edges_nodup.filter _))
    exact Network.eq_of_id_eq (Array.mem_toList_iff.1 (List.mem_filter.1 he).1)
      (Array.mem_toList_iff.1 (List.mem_filter.1 hf).1) (congrArg Leg.edge hef)

theorem flatMap_outgoing_perm :
    (E.stops.flatMap E.outgoing).Perm (E.network.edges.toList.flatMap E.departuresOf) := by
  refine (List.perm_ext_iff_of_nodup (List.nodup_flatMap.2 ⟨?_, ?_⟩)
    (List.nodup_flatMap.2 ⟨?_, ?_⟩)).2 fun leg => ?_
  · exact fun s _ => outgoing_nodup h s
  · refine (stops_nodup h).imp fun {s t} hst leg hs ht => hst ?_
    rw [← h.tail_eq hs, ← h.tail_eq ht]
  · intro e _
    refine (departuresOf_sorted h e).imp ?_
    rintro a _ hab rfl
    exact Nat.lt_irrefl _ hab
  · refine E.network.edges_nodup.imp_of_mem fun {e f} he hf hef leg hle hlf => hef ?_
    obtain ⟨_, _, _, rfl⟩ := mem_departuresOf.1 hle
    obtain ⟨_, _, _, hleg⟩ := mem_departuresOf.1 hlf
    exact (Network.eq_of_id_eq (Array.mem_toList_iff.1 hf) (Array.mem_toList_iff.1 he)
      (congrArg Leg.edge hleg)).symm
  · simp only [List.mem_flatMap, exists_outgoing_iff h, Array.mem_toList_iff]

theorem legCount_eq : E.legCount =
    total (E.network.edges.toList.map fun e => (E.departuresOf e).length) := by
  rw [legCount, ← length_flatMap_eq_total, ← length_flatMap_eq_total,
    (flatMap_outgoing_perm h).length_eq]

theorem encard_reached :
    {s | s.time ≤ E.horizon ∧ E.network.Reaches s}.encard = E.stopCount := by
  have hset : {s | s.time ≤ E.horizon ∧ E.network.Reaches s} = (E.stops.toFinset : Set Stop) := by
    ext s
    simp [mem_stops_iff h]
  rw [hset, Set.encard_coe_eq_coe_finsetCard, List.toFinset_card_of_nodup (stops_nodup h),
    stopCount]

end

/-- An expansion is the part of a network that can be reached by a horizon. -/
structure Covers (E : Expansion) (N : Network) (horizon : Nat) : Prop where
  network_eq : E.network = N
  horizon_eq : E.horizon = horizon
  /-- The stops are what a sweep settles that goes on until no stop waits. -/
  settled : Frontier.Sweeps (N.settleStop horizon) (.single N.start ()) [] E.stops.reverse
  departures_source : E.departures N.source = [0]
  departures_sorted : ∀ v, (E.departures v).Pairwise (· < ·)
  mem_departures : ∀ v t, v ≠ N.source →
    (t ∈ E.departures v ↔ t ≤ horizon ∧ N.Reaches ⟨v, t⟩)
  stopCount : {s | s.time ≤ horizon ∧ N.Reaches s}.encard = E.stopCount
  departuresOf_sorted : ∀ e ∈ N.edges,
    (E.departuresOf e).Pairwise fun a b => a.tail.time < b.tail.time
  mem_departuresOf : ∀ e ∈ N.edges, ∀ leg, leg ∈ E.departuresOf e ↔
    ∃ t ∈ E.departures e.source, t + e.travelTime ≤ horizon ∧ e.departAt t = leg
  departuresOf_eq : ∀ e ∈ N.edges, E.departuresOf e =
    ((E.departures e.source).takeWhile fun t => t + e.travelTime ≤ horizon).map e.departAt
  outgoing : ∀ leg, (∃ s, (s.time ≤ horizon ∧ N.Reaches s) ∧ leg ∈ E.outgoing s) ↔
    ∃ e ∈ N.edges, leg ∈ E.departuresOf e
  legCount : E.legCount = total (N.edges.toList.map fun e => (E.departuresOf e).length)

end Expansion

/-- Every checked network can be expanded up to every horizon, and the expansion is exactly what can
be reached. -/
theorem Network.exists_expansion_covers (hN : N.WellFormed) (horizon : Nat) :
    ∃ E, Expansion.ofNetwork? N horizon = some E ∧ E.Covers N horizon := by
  let E : Expansion := { network := N, horizon }
  have h : E.network.WellFormed := hN
  refine ⟨E, if_pos (List.all_eq_true.2 fun s hs => ?_), ?_⟩
  · have hlt := hN.vertex_lt ((Expansion.mem_stops_iff h).1 hs).2
    rw [Expansion.isSound, hN.isSound_of_lt hlt, Bool.or_true]
  · constructor
    case network_eq => rfl
    case horizon_eq => rfl
    case settled => exact (hN.sweeps_reachable horizon).1
    case departures_source => exact Expansion.departures_source h
    case departures_sorted => exact Expansion.departures_sorted h
    case mem_departures =>
      intro v t hv
      rw [Expansion.mem_departures h]
      exact ⟨fun ht => ⟨ht.1, ht.2.1⟩, fun ht => ⟨ht.1, ht.2, fun hs => absurd hs hv⟩⟩
    case stopCount => exact Expansion.encard_reached h
    case departuresOf_sorted => exact fun e _ => Expansion.departuresOf_sorted h e
    case mem_departuresOf => exact fun e _ leg => Expansion.mem_departuresOf
    case departuresOf_eq => exact fun e _ => Expansion.departuresOf_eq_takeWhile h e
    case outgoing =>
      intro leg
      rw [← Expansion.exists_outgoing_iff h]
      simp only [Expansion.mem_stops_iff h]
      rfl
    case legCount => exact Expansion.legCount_eq h

def Network.chain : Network :=
  { Network.withArcs "chain" 3 0 [⟨0, 1, 2⟩, ⟨1, 2, 3⟩, ⟨2, 0, 1⟩, ⟨1, 0, 4⟩] with horizon := 10 }

theorem Network.ofArcs_chain : Network.ofArcs "chain" 3 0
    [⟨0, 1, 2⟩, ⟨1, 2, 3⟩, ⟨2, 0, 1⟩, ⟨1, 0, 4⟩] (some 10) = .ok Network.chain := rfl

theorem Network.exists_expansion_covers_chain : Network.chain.WellFormed ∧
    ∃ E, Expansion.ofNetwork? .chain 10 = some E ∧ E.Covers .chain 10 := by
  have h := wellFormed_of_ofArcs ofArcs_chain
  exact ⟨h, exists_expansion_covers h 10⟩

example : Network.chain.expand.stops = [⟨0, 0⟩, ⟨1, 2⟩, ⟨2, 5⟩, ⟨0, 6⟩] := by
  decide +kernel

end TourPricing
