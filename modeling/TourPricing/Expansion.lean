import TourPricing.Frontier

namespace TourPricing

/-- Where walks start: the source at time zero. -/
def Network.start (N : Network) : Stop :=
  ⟨N.source, 0⟩

/-- Whether a walk ends at a stop: a later stop at the source. -/
def Network.isTerminal (N : Network) (s : Stop) : Bool :=
  s.vertex == N.source && 0 < s.time

/-- The legs that leave a stop and arrive by the horizon. -/
def Network.legsFrom (N : Network) (horizon : Nat) (s : Stop) : List Leg :=
  if N.isTerminal s then []
  else ((N.outEdges s.vertex).map (·.departAt s.time)).filter (·.head.time ≤ horizon)

/-- The legs that leave a stop and arrive by the horizon. There is no answer if the arrival of some
edge is no time. -/
def Network.legsFrom? (N : Network) (horizon : Nat) (s : Stop) : Option (List Leg) :=
  if N.isTerminal s then some []
  else ((N.outEdges s.vertex).mapM (Edge.departAt? · s.time)).map fun legs =>
    legs.filter (·.head.time ≤ horizon)

/-- How many stops a sweep up to the horizon settles at most, until it comes to a vertex that does
not exist. If every edge takes time, each stop is settled once. Edges that take none may bring a
stop back at the same time; but if they form no cycle, each walk along them is walked once at most,
and such walks differ in the vertices that they visit. -/
def Network.sweepLimit (N : Network) (horizon : Nat) : Nat :=
  (horizon + 1) *
    if N.edges.all (0 < ·.travelTime) then N.dimension + 1 else Nat.pow 2 N.dimension

/-- Settles a stop: from now on the stops wait to which its legs lead. -/
def Network.settleStop (N : Network) (horizon : Nat) (s : Stop) (_ : Unit) (F : Frontier Unit)
    (stops : List Stop) : Frontier Unit × List Stop :=
  ((N.legsFrom horizon s).foldl (fun F leg => F.set leg.head ()) F, s :: stops)

def Network.reachable (N : Network) (horizon : Nat) : List Stop :=
  (Frontier.sweep (N.settleStop horizon) (N.sweepLimit horizon) (.single N.start ()) []).reverse

/-- A network with the stops that can be reached by a horizon. -/
structure Expansion where
  network : Network
  horizon : Nat
  stops : List Stop := network.reachable horizon
  stops_eq : stops = network.reachable horizon := by rfl

/-- The expansion of a network up to its own horizon. -/
def Network.expand (N : Network) : Expansion :=
  { network := N, horizon := N.horizon }

namespace Expansion

variable (E : Expansion)

/-- Whether a walk ends at a stop, or can go on with edges that all exist. -/
def isSound (s : Stop) : Bool :=
  E.network.isTerminal s || E.network.isSound s.vertex

/-- The expansion of a network up to a horizon; there is none if it comes across an edge or a vertex
that does not exist. -/
def ofNetwork? (N : Network) (horizon : Nat) : Option Expansion :=
  let E : Expansion := { network := N, horizon }
  if E.stops.all E.isSound then some E else none

def outgoing (s : Stop) : List Leg :=
  E.network.legsFrom E.horizon s

/-- The legs that leave a stop. There is no answer if the vertex or one of its edges does not exist,
or if an arrival is no time. -/
def outgoing? (s : Stop) : Option (List Leg) :=
  if E.isSound s then E.network.legsFrom? E.horizon s else none

/-- The expansion of a network up to a horizon. There is none if at some stop there is no answer to
what leaves it. -/
def build? (N : Network) (horizon : Nat) : Option Expansion :=
  (ofNetwork? N horizon).filter fun E => E.stops.all fun s => (E.outgoing? s).isSome

def stopCount : Nat :=
  E.stops.length

def legCount : Nat :=
  total (E.stops.map fun s => (E.outgoing s).length)

def departures (v : Nat) : List Nat :=
  (E.stops.filter fun s => s.vertex == v && !E.network.isTerminal s).map (·.time)

def departures? (v : Nat) : Option (List Nat) :=
  if v < E.network.dimension then some (E.departures v) else none

/-- The departures of an edge that arrive by the horizon, in order. -/
def departuresOf (e : Edge) : List Leg :=
  ((E.departures e.source).map e.departAt).filter (·.head.time ≤ E.horizon)

def departuresOf? (e : Nat) : Option (List Leg) :=
  (E.network.edge? e).map E.departuresOf

/-- The departure of an edge at a time, reachable or not. -/
def leg? (e t : Nat) : Option Leg :=
  (E.network.edge? e).bind (·.departAt? t)

end Expansion

end TourPricing
