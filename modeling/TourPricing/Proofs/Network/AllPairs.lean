import TourPricing.Proofs.Network.Adjacency
import TourPricing.Proofs.Network.Construction

namespace TourPricing

variable {β γ : Type} {i j k r : Nat}

theorem filter_zipIdx_ne (l : List β) (i k : Nat) :
    (l.zipIdx k).filter (·.2 != i + k) = (l.zipIdx k).eraseIdx i := by
  induction l generalizing i k with
  | nil => rfl
  | cons a rest ih =>
    rw [List.zipIdx_cons]
    cases i with
    | zero =>
      rw [List.eraseIdx_cons_zero, List.filter_cons_of_neg (by simp), List.filter_eq_self]
      rintro ⟨b, j⟩ hb
      have hle : k + 1 ≤ j := (List.mem_zipIdx hb).1
      have hne : j ≠ 0 + k := by omega
      exact bne_iff_ne.2 hne
    | succ i =>
      have hnext : i + 1 + k = i + (k + 1) := by omega
      rw [List.eraseIdx_cons_succ, List.filter_cons_of_pos (by simp), hnext, ih]

theorem getElem?_eraseIdx_zipIdx_eq_some_iff {l : List β} {b : β} :
    (l.zipIdx.eraseIdx i)[r]? = some (b, j) ↔
      (i ≠ j ∧ r = if j < i then j else j - 1) ∧ l[j]? = some b := by
  have hplace : (if r < i then r else r + 1) = j ↔ i ≠ j ∧ r = if j < i then j else j - 1 := by
    split <;> split <;> omega
  rw [List.getElem?_eraseIdx, ← hplace, ← apply_ite (l.zipIdx[·]?), List.getElem?_zipIdx,
    Option.map_eq_some_iff, Nat.zero_add]
  constructor
  · rintro ⟨c, hc, heq⟩
    obtain ⟨rfl, rfl⟩ := Prod.mk.inj heq
    exact ⟨rfl, hc⟩
  · rintro ⟨rfl, hb⟩
    exact ⟨b, hb, rfl⟩

section

variable {l : List β} {f : β → List γ} {m : Nat}

theorem length_flatMap_of_length (hm : ∀ b ∈ l, (f b).length = m) :
    (l.flatMap f).length = l.length * m := by
  induction l with
  | nil => simp
  | cons b rest ih =>
    rw [List.flatMap_cons, List.length_append, hm b List.mem_cons_self,
      ih fun c hc => hm c (List.mem_cons_of_mem b hc), List.length_cons, Nat.succ_mul, Nat.add_comm]

theorem getElem?_flatMap_of_length (hm : ∀ b ∈ l, (f b).length = m) (hr : r < m) (i : Nat) :
    (l.flatMap f)[i * m + r]? = l[i]?.bind fun b => (f b)[r]? := by
  induction l generalizing i with
  | nil => simp
  | cons b rest ih =>
    have hb := hm b List.mem_cons_self
    rw [List.flatMap_cons]
    cases i with
    | zero =>
      rw [Nat.zero_mul, Nat.zero_add, List.getElem?_append_left (hb.symm ▸ hr)]
      rfl
    | succ i =>
      have hnumber : (i + 1) * m + r = (f b).length + (i * m + r) := by
        rw [hb, Nat.succ_mul]
        omega
      rw [hnumber, List.getElem?_append_right (Nat.le_add_right _ _), Nat.add_sub_cancel_left,
        ih fun c hc => hm c (List.mem_cons_of_mem b hc)]
      rfl

end

namespace Network

variable {points : List (Float × Float)} {p q : Float × Float} {N : Network} {t : Nat}

theorem one_le_travelTimeBetween (p q : Float × Float) : 1 ≤ travelTimeBetween p q :=
  Nat.le_max_left _ _

theorem travelTimeBetween_lt (p q : Float × Float) : travelTimeBetween p q < timeLimit := by
  apply Nat.max_lt.2
  exact ⟨by decide, UInt32.toNat_lt _⟩

def pairNumber (n i j : Nat) : Nat :=
  i * (n - 1) + if j < i then j else j - 1

def arcsFrom (points : List (Float × Float)) (p : Float × Float) (i : Nat) : List Arc :=
  (points.zipIdx.eraseIdx i).map fun (q, j) => ⟨i, j, travelTimeBetween p q⟩

theorem arcsBetween_eq (points : List (Float × Float)) :
    arcsBetween points = points.zipIdx.flatMap fun (p, i) => arcsFrom points p i := by
  rw [arcsBetween]
  congr 1
  funext ⟨p, i⟩
  change _ = arcsFrom points p i
  rw [arcsFrom, ← filter_zipIdx_ne]
  rfl

theorem length_arcsFrom : ∀ b ∈ points.zipIdx,
    (arcsFrom points b.1 b.2).length = points.length - 1 := by
  rintro ⟨p, i⟩ hmem
  have hlt : i < points.zipIdx.length := List.length_zipIdx.symm ▸ (List.mem_zipIdx' hmem).1
  rw [arcsFrom, List.length_map, List.length_eraseIdx_of_lt hlt, List.length_zipIdx]

theorem getElem?_arcsFrom_eq_some_iff : (arcsFrom points p i)[r]? = some ⟨k, j, t⟩ ↔
    k = i ∧ (i ≠ j ∧ r = if j < i then j else j - 1) ∧
      ∃ q, points[j]? = some q ∧ t = travelTimeBetween p q := by
  rw [arcsFrom, List.getElem?_map, Option.map_eq_some_iff]
  constructor
  · rintro ⟨⟨q, j'⟩, hq, harc⟩
    obtain ⟨rfl, rfl, rfl⟩ := Arc.mk.inj harc
    obtain ⟨hplace, hq⟩ := getElem?_eraseIdx_zipIdx_eq_some_iff.1 hq
    exact ⟨rfl, hplace, q, hq, rfl⟩
  · rintro ⟨rfl, hplace, q, hq, rfl⟩
    exact ⟨(q, j), getElem?_eraseIdx_zipIdx_eq_some_iff.2 ⟨hplace, hq⟩, rfl⟩

theorem length_arcsBetween (points : List (Float × Float)) :
    (arcsBetween points).length = points.length * (points.length - 1) := by
  rw [arcsBetween_eq, length_flatMap_of_length length_arcsFrom, List.length_zipIdx]

theorem getElem?_arcsBetween (hr : r < points.length - 1) (i : Nat) :
    (arcsBetween points)[i * (points.length - 1) + r]? =
      points[i]?.bind fun p => (arcsFrom points p i)[r]? := by
  rw [arcsBetween_eq, getElem?_flatMap_of_length length_arcsFrom hr, List.getElem?_zipIdx,
    Option.bind_map, Nat.zero_add]
  rfl

/-- The arcs between points are those from each to each other one, and every arc stands at the place
that its ends say. -/
theorem getElem?_arcsBetween_eq_some_iff : (arcsBetween points)[k]? = some ⟨i, j, t⟩ ↔
    i ≠ j ∧ k = pairNumber points.length i j ∧
      ∃ p q, points[i]? = some p ∧ points[j]? = some q ∧ t = travelTimeBetween p q := by
  constructor
  · intro harc
    have hk : k < points.length * (points.length - 1) := by
      rw [← length_arcsBetween]
      exact (List.getElem?_eq_some_iff.1 harc).1
    obtain ⟨m, r, hr, rfl⟩ : ∃ m r, r < points.length - 1 ∧ k = m * (points.length - 1) + r :=
      ⟨_, _, Nat.mod_lt k (Nat.pos_of_mul_pos_left (Nat.zero_lt_of_lt hk)),
        (Nat.div_add_mod' k _).symm⟩
    rw [getElem?_arcsBetween hr, Option.bind_eq_some_iff] at harc
    obtain ⟨p, hp, harc⟩ := harc
    obtain ⟨rfl, ⟨hne, rfl⟩, q, hq, rfl⟩ := getElem?_arcsFrom_eq_some_iff.1 harc
    exact ⟨hne, rfl, p, q, hp, hq, rfl⟩
  · rintro ⟨hne, rfl, p, q, hp, hq, rfl⟩
    have hi : i < points.length := (List.getElem?_eq_some_iff.1 hp).1
    have hj : j < points.length := (List.getElem?_eq_some_iff.1 hq).1
    have hr : (if j < i then j else j - 1) < points.length - 1 := by
      split <;> omega
    rw [pairNumber, getElem?_arcsBetween hr, hp]
    exact getElem?_arcsFrom_eq_some_iff.2 ⟨rfl, ⟨hne, rfl⟩, q, hq, rfl⟩

structure JoinsAll (N : Network) (points : List (Float × Float)) : Prop where
  edgeCount : N.edgeCount = points.length * (points.length - 1)
  findEdge_eq : ∀ i j (hi : i < points.length) (hj : j < points.length), i ≠ j →
    N.findEdge i j =
      some ⟨pairNumber points.length i j, i, j, travelTimeBetween points[i] points[j]⟩
  /-- No edge is hidden by another one with the same ends. -/
  unique : ∀ e ∈ N.edges, N.findEdge e.source e.target = some e
  travelTime : ∀ e ∈ N.edges, 1 ≤ e.travelTime ∧ e.travelTime < timeLimit

theorem joinsAll_of_edges (hN : N.WellFormed)
    (hedges : N.edges = TourPricing.numbered (arcsBetween points)) : N.JoinsAll points := by
  have hindexes := indexes_of_edges hN hedges
  have hunique : ∀ e ∈ N.edges, N.findEdge e.source e.target = some e := by
    intro e he
    have harc := (mem_edges_iff hedges).1 he
    rw [hindexes.findEdge_eq_some_iff]
    refine ⟨N.edge?_of_mem he, ⟨e.travelTime, harc⟩, ?_⟩
    rintro k ⟨t, hk⟩
    rw [(getElem?_arcsBetween_eq_some_iff.1 harc).2.1, (getElem?_arcsBetween_eq_some_iff.1 hk).2.1]
  constructor
  case edgeCount => rw [hindexes.edgeCount, length_arcsBetween]
  case findEdge_eq =>
    intro i j hi hj hne
    refine hunique ⟨_, i, j, _⟩ ((mem_edges_iff hedges).2 ?_)
    exact getElem?_arcsBetween_eq_some_iff.2
      ⟨hne, rfl, _, _, List.getElem?_eq_getElem hi, List.getElem?_eq_getElem hj, rfl⟩
  case unique => exact hunique
  case travelTime =>
    intro e he
    obtain ⟨-, -, p, q, -, -, htime⟩ :=
      getElem?_arcsBetween_eq_some_iff.1 ((mem_edges_iff hedges).1 he)
    rw [htime]
    exact ⟨one_le_travelTimeBetween p q, travelTimeBetween_lt p q⟩

theorem wellFormed_onPoints {source : Nat} (hs : source < points.length) (name : String)
    (horizon : Option Nat) : (onPoints name points source horizon).WellFormed := by
  have h := wellFormed_withArcs name hs fun a ha => fault?_of_mem_arcsBetween ha
  exact ⟨h.source_lt, h.edge_ok, h.outgoing_eq⟩

/-- Whatever arcs make a network, its edges are these arcs, the lists at its vertices hold every
edge once, and the edge that is found between two vertices is the first one among the arcs. Points
with a source among them always make a network, and between two of them there is exactly one edge
each way, with a number that is known from its ends. -/
theorem indexes_and_joinsAll :
    (∀ {name : String} {dimension source : Nat} {arcs : List Arc} {horizon : Option Nat}
      {N : Network}, ofArcs name dimension source arcs horizon = .ok N →
        N.dimension = dimension ∧ N.Indexes arcs) ∧
    (∀ {points : List (Float × Float)} {source : Nat}, source < points.length →
      ∀ (name : String) (horizon : Nat),
        ∃ N, ofCoordinates name points source (some horizon) = .ok N ∧ N.JoinsAll points) := by
  constructor
  · intro name dimension source arcs horizon N h
    have hN := wellFormed_of_ofArcs h
    obtain ⟨_, _, _, rfl⟩ := ofArcs_eq_ok_iff.1 h
    exact ⟨rfl, indexes_of_edges hN rfl⟩
  · intro points source hs name horizon
    refine ⟨_, ofCoordinates_eq_ok_iff.2 ⟨hs, nofun, rfl⟩, ?_⟩
    exact joinsAll_of_edges (wellFormed_onPoints hs name (some horizon)) rfl

/-- Of two arcs between the same vertices the first one is found, even if it is the slower one. -/
theorem indexes_and_joinsAll_parallel :
    (∃ N, ofArcs "parallel" 3 0 [⟨0, 2, 9⟩, ⟨1, 0, 1⟩, ⟨0, 2, 1⟩] (some 20) = .ok N ∧
      N.outgoing.toList.flatten.Perm [0, 1, 2] ∧ N.findEdge 0 2 = some ⟨0, 0, 2, 9⟩ ∧
      N.findEdge 2 0 = none ∧ N.findEdge 7 0 = none) ∧
    1 < [((0 : Float), (0 : Float)), (3, 4), (0, 4)].length ∧
    ∃ N, ofCoordinates "corner" [(0, 0), (3, 4), (0, 4)] 1 (some 20) = .ok N ∧
      N.edgeCount = 6 ∧ N.findEdge 2 1 = some ⟨5, 2, 1, travelTimeBetween (0, 4) (3, 4)⟩ := by
  obtain ⟨harcs, hpoints⟩ := indexes_and_joinsAll
  have hparallel : ofArcs "parallel" 3 0 [⟨0, 2, 9⟩, ⟨1, 0, 1⟩, ⟨0, 2, 1⟩] (some 20) =
      .ok (onArcs "parallel" 3 0 [⟨0, 2, 9⟩, ⟨1, 0, 1⟩, ⟨0, 2, 1⟩] (some 20)) := rfl
  obtain ⟨-, h⟩ := harcs hparallel
  have hlt : 1 < [((0 : Float), (0 : Float)), (3, 4), (0, 4)].length := by decide
  obtain ⟨N, hN, hjoins⟩ := hpoints hlt "corner" 20
  refine ⟨⟨_, hparallel, h.listsArcs.perm, ?_, ?_, ?_⟩, hlt, N, hN, hjoins.edgeCount, ?_⟩
  · rw [h.findEdge_eq_some_iff]
    exact ⟨rfl, ⟨9, rfl⟩, fun i _ => Nat.zero_le i⟩
  · rw [h.findEdge_eq_none_iff]
    simp
  · rw [h.findEdge_eq_none_iff]
    simp
  · exact hjoins.findEdge_eq 2 1 (by decide) (by decide) (by decide)

end Network

end TourPricing
