import TourPricing.Network.Basic

namespace TourPricing

/-- Why a tour leads through no walk of the network. -/
inductive Untraceable where
  | wrongStart (source : Nat)
  | missingEdge (source target : Nat)
  | late (arrival vertex horizon : Nat)
  /-- The edge is listed at a vertex, but does not exist. -/
  | unknownEdge (e : Nat)
  /-- The arrival at a vertex is no time. -/
  | timeOverflow (vertex : Nat)
deriving DecidableEq

def Untraceable.message : Untraceable → String
  | .wrongStart s => s!"tour must start at source {s}"
  | .missingEdge u v => s!"no edge {u} -> {v}"
  | .late t v horizon => s!"arrival {t} at vertex {v} exceeds horizon {horizon}"
  | .unknownEdge e => s!"no edge number {e}"
  | .timeOverflow v => s!"arrival at vertex {v} does not fit"

/-- A list of visits and its evaluation. A tour without a duration costs more than any other. -/
structure Tour where
  vertices : List Nat
  cost : Option Nat
  duration : Nat
  feasible : Bool
  algorithm : String
deriving DecidableEq

/-- The steps of a closed walk through a list of vertices. -/
def closedSteps (vertices : List Nat) : List (Nat × Nat) :=
  vertices.zip (vertices.drop 1 ++ vertices.take 1)

namespace Network

/-- The first of some listed edges that leads to `v`; all edges up to it have to exist. -/
def leadingTo (N : Network) (v : Nat) : List Nat → Except Untraceable (Option Edge)
  | [] => .ok none
  | n :: rest =>
    match N.edge? n with
    | none => .error (.unknownEdge n)
    | some e => if e.target = v then .ok (some e) else N.leadingTo v rest

def edgeTo (N : Network) (u v : Nat) : Except Untraceable Edge := do
  match ← N.leadingTo v (N.outNumbers u) with
  | some e => pure e
  | none => throw (.missingEdge u v)

/-- The edges of a tour, with the one back to the source. -/
def tourEdges (N : Network) (vertices : List Nat) : Except Untraceable (List Edge) :=
  if vertices.head? = some N.source then
    (closedSteps vertices).mapM fun (u, v) => N.edgeTo u v
  else .error (.wrongStart N.source)

/-- Whether a list starts at the source and has as many vertices as the network, all different. -/
def isComplete (N : Network) (vertices : List Nat) : Bool :=
  vertices.length = N.dimension ∧ vertices.head? = some N.source ∧ vertices.Nodup

def admitsReturn (N : Network) (t : Nat) : Bool :=
  t ≤ N.horizon && N.lowerBound.all (· ≤ t)

end Network

namespace Tour

def evaluate (N : Network) (vertices : List Nat) (algorithm : String) : Tour :=
  match N.tourEdges vertices with
  | .ok edges =>
    let duration := total (edges.map (·.travelTime))
    { vertices, cost := some duration, duration, algorithm
      feasible := N.isComplete vertices && N.admitsReturn duration }
  | .error _ => { vertices, cost := none, duration := 0, feasible := false, algorithm }

/-- The evaluation of a list of visits. There is none if an edge is come across that does not exist,
or if the duration does not fit. -/
def evaluate? (N : Network) (vertices : List Nat) (algorithm : String) : Option Tour :=
  match N.tourEdges vertices with
  | .error (.unknownEdge _) => none
  | .error _ => some (evaluate N vertices algorithm)
  | .ok edges => (totalTime? (edges.map (·.travelTime))).map fun _ => evaluate N vertices algorithm

theorem evaluate_of_evaluate? {N : Network} {vertices : List Nat} {algorithm : String} {T : Tour}
    (h : evaluate? N vertices algorithm = some T) : evaluate N vertices algorithm = T := by
  rw [evaluate?] at h
  split at h
  · cases h
  · exact Option.some.inj h
  · obtain ⟨_, _, h⟩ := Option.map_eq_some_iff.1 h
    exact h

def position? (t : Tour) (v : Nat) : Option Nat :=
  t.vertices.idxOf? v

def cheaper (a b : Tour) : Bool :=
  match a.cost, b.cost with
  | some x, some y => x < y
  | some _, none => true
  | none, _ => false

end Tour

end TourPricing
