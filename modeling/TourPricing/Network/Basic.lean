import TourPricing.Total

namespace TourPricing

/-- Numbers of vertices and edges have 64 bits. -/
def indexLimit : Nat :=
  UInt64.size

/-- Times have 32 bits. -/
def timeLimit : Nat :=
  UInt32.size

/-- The sum of two times. There is none if it does not fit. -/
def addTimes? (s t : Nat) : Option Nat :=
  if s + t < timeLimit then some (s + t) else none

def totalTime? (times : List Nat) : Option Nat :=
  times.foldlM addTimes? 0

theorem addTimes?_eq_some_iff {s t u : Nat} :
    addTimes? s t = some u ↔ s + t = u ∧ u < timeLimit := by
  rw [addTimes?, Option.ite_none_right_eq_some, Option.some.injEq]
  constructor
  · rintro ⟨hlt, rfl⟩
    exact ⟨rfl, hlt⟩
  · rintro ⟨rfl, hlt⟩
    exact ⟨hlt, rfl⟩

theorem foldlM_addTimes? (times : List Nat) {s : Nat} (hs : s < timeLimit) :
    times.foldlM addTimes? s =
      if s + total times < timeLimit then some (s + total times) else none := by
  induction times generalizing s with
  | nil => exact (if_pos hs).symm
  | cons t rest ih =>
    rw [List.foldlM_cons, total_cons, ← Nat.add_assoc, addTimes?]
    by_cases ht : s + t < timeLimit
    · rw [if_pos ht]
      exact ih ht
    · have hsum : ¬ s + t + total rest < timeLimit := by omega
      rw [if_neg ht, if_neg hsum]
      rfl

theorem totalTime?_eq_some_iff {times : List Nat} {t : Nat} :
    totalTime? times = some t ↔ total times = t ∧ t < timeLimit := by
  rw [totalTime?, foldlM_addTimes? times (by decide), Nat.zero_add, Option.ite_none_right_eq_some,
    Option.some.injEq]
  constructor
  · rintro ⟨hlt, rfl⟩
    exact ⟨rfl, hlt⟩
  · rintro ⟨rfl, hlt⟩
    exact ⟨hlt, rfl⟩

structure Vertex where
  id : Nat
  x : Float
  y : Float

structure Edge where
  id : Nat
  source : Nat
  target : Nat
  travelTime : Nat
deriving DecidableEq, Inhabited

/-- A network as it is written down, before anything is checked. -/
structure Draft where
  name : String
  comment : String
  dimension : Nat
  source : Nat
  /-- The latest arrival at any vertex. -/
  horizon : Nat
  /-- The earliest return to the source. -/
  lowerBound : Option Nat
  vertices : List Vertex
  edges : Array Edge

def edgesFrom (edges : Array Edge) (v : Nat) : List Edge :=
  edges.toList.filter (·.source == v)

def adjacency (dimension : Nat) (edges : Array Edge) : Array (List Nat) :=
  Array.ofFn fun v : Fin dimension => (edgesFrom edges v).map (·.id)

/-- The travel time of the slowest edge, zero if there is none. -/
def slowest (edges : List Edge) : Nat :=
  (edges.map (·.travelTime)).max?.getD 0

/-- A network whose edges are numbered in order, with the numbers of the edges that are listed at
each vertex. -/
structure Network extends Draft where
  outgoing : Array (List Nat) := adjacency dimension edges
  numbered : ∀ (i : Nat) (h : i < edges.size), edges[i].id = i
  size_outgoing : outgoing.size = dimension := by simp [adjacency]

namespace Network

variable (N : Network)

/-- What networks that were checked keep to. -/
structure WellFormed : Prop where
  source_lt : N.source < N.dimension
  edge_ok : ∀ e ∈ N.edges, e.source < N.dimension ∧ e.target < N.dimension ∧
    e.source ≠ e.target ∧ 0 < e.travelTime
  outgoing_eq : N.outgoing = adjacency N.dimension N.edges

def edgeCount : Nat :=
  N.edges.size

def edge? (e : Nat) : Option Edge :=
  N.edges[e]?

/-- The numbers of the edges that are listed at `v`. -/
def outNumbers (v : Nat) : List Nat :=
  N.outgoing.getD v []

/-- The edges that are listed at `v`. -/
def outEdges (v : Nat) : List Edge :=
  (N.outNumbers v).filterMap N.edge?

/-- Whether `v` is a vertex and all edges that are listed there exist. -/
def isSound (v : Nat) : Bool :=
  v < N.dimension && (N.outNumbers v).all (· < N.edgeCount)

/-- The first edge that is listed at `u` and leads to `v`. -/
def findEdge (u v : Nat) : Option Edge :=
  (N.outEdges u).find? (·.target == v)

/-- The slowest edges out of all vertices together: the horizon that no walk exceeds which leaves
each vertex at most once. -/
def defaultHorizon : Nat :=
  total ((List.range N.dimension).map fun v => slowest (N.outEdges v))

/-- The default horizon. There is no answer if an edge is listed that does not exist, or if the sum
does not fit. -/
def defaultHorizon? : Option Nat :=
  if (List.range N.dimension).all N.isSound then
    totalTime? ((List.range N.dimension).map fun v => slowest (N.outEdges v))
  else none

/-- The travel time of an edge, zero if there is no such edge. -/
def travelTime (e : Nat) : Nat :=
  ((N.edge? e).map (·.travelTime)).getD 0

theorem defaultHorizon?_eq_some_iff {t : Nat} : N.defaultHorizon? = some t ↔
    (∀ v < N.dimension, N.isSound v = true) ∧ N.defaultHorizon = t ∧ t < timeLimit := by
  rw [defaultHorizon?, Option.ite_none_right_eq_some, totalTime?_eq_some_iff, List.all_eq_true]
  simp only [List.mem_range]
  rfl

private theorem filterMap_eq_self {α : Type} {f : α → Option α} :
    ∀ {l : List α}, (∀ a ∈ l, f a = some a) → l.filterMap f = l
  | [], _ => rfl
  | a :: l, h => by
    rw [List.filterMap_cons_some (h a List.mem_cons_self),
      filterMap_eq_self fun b hb => h b (List.mem_cons_of_mem a hb)]

theorem edge?_of_mem {e : Edge} (h : e ∈ N.edges) : N.edge? e.id = some e := by
  obtain ⟨i, hi, rfl⟩ := Array.mem_iff_getElem.1 h
  rw [edge?, N.numbered i hi, Array.getElem?_eq_getElem hi]

theorem id_of_edge? {n : Nat} {e : Edge} (h : N.edge? n = some e) : e.id = n := by
  obtain ⟨hn, rfl⟩ := Array.getElem?_eq_some_iff.1 h
  exact N.numbered n hn

namespace WellFormed

variable {N}

theorem outNumbers_eq (h : N.WellFormed) (v : Nat) :
    N.outNumbers v = (edgesFrom N.edges v).map (·.id) := by
  rw [outNumbers, h.outgoing_eq, adjacency, Array.getD_eq_getD_getElem?]
  by_cases hv : v < N.dimension
  · simp [hv]
  · have : edgesFrom N.edges v = [] := by
      rw [edgesFrom, List.filter_eq_nil_iff]
      intro e he
      have := (h.edge_ok e (Array.mem_toList_iff.1 he)).1
      simp; omega
    simp [hv, this]

theorem outEdges_eq (h : N.WellFormed) (v : Nat) : N.outEdges v = edgesFrom N.edges v := by
  rw [outEdges, h.outNumbers_eq, List.filterMap_map]
  exact filterMap_eq_self fun e he =>
    N.edge?_of_mem (Array.mem_toList_iff.1 (List.mem_filter.1 he).1)

theorem mem_outEdges (h : N.WellFormed) {v : Nat} {e : Edge} :
    e ∈ N.outEdges v ↔ e ∈ N.edges ∧ e.source = v := by
  simp [h.outEdges_eq, edgesFrom]

theorem isSound_of_lt (h : N.WellFormed) {v : Nat} (hv : v < N.dimension) : N.isSound v = true := by
  simp only [Network.isSound, hv, decide_true, Bool.true_and, List.all_eq_true, decide_eq_true_eq,
    h.outNumbers_eq, List.mem_map]
  rintro _ ⟨e, he, rfl⟩
  have := N.edge?_of_mem (Array.mem_toList_iff.1 (List.mem_filter.1 he).1)
  exact (Array.getElem?_eq_some_iff.1 this).1

end WellFormed

end Network

end TourPricing
