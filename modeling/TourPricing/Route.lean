import TourPricing.Json.Basic
import TourPricing.Network.Basic
import TourPricing.Scalar

namespace TourPricing

/-- A vertex at a time. -/
structure Stop where
  vertex : Nat
  time : Nat
deriving DecidableEq, Inhabited

/-- Earlier stops first, at the same time smaller vertices first. -/
def Stop.before (a b : Stop) : Bool :=
  a.time < b.time || (a.time == b.time && a.vertex < b.vertex)

/-- A departure of an edge. -/
structure Leg where
  edge : Nat
  tail : Stop
  head : Stop
deriving DecidableEq, Inhabited

def Leg.travelTime (leg : Leg) : Nat :=
  leg.head.time - leg.tail.time

/-- The time that a leg takes. There is none if it arrives before it leaves. -/
def Leg.travelTime? (leg : Leg) : Option Nat :=
  if leg.tail.time ≤ leg.head.time then some leg.travelTime else none

def Edge.departAt (e : Edge) (t : Nat) : Leg :=
  ⟨e.id, ⟨e.source, t⟩, ⟨e.target, t + e.travelTime⟩⟩

/-- The departure of an edge at a time. There is none if the arrival is no time. -/
def Edge.departAt? (e : Edge) (t : Nat) : Option Leg :=
  (addTimes? t e.travelTime).map fun arrival => ⟨e.id, ⟨e.source, t⟩, ⟨e.target, arrival⟩⟩

theorem Edge.departAt?_eq_some_iff {e : Edge} {t : Nat} {leg : Leg} :
    e.departAt? t = some leg ↔ e.departAt t = leg ∧ leg.head.time < timeLimit := by
  rw [departAt?, Option.map_eq_some_iff]
  constructor
  · rintro ⟨arrival, harrival, rfl⟩
    obtain ⟨rfl, hlt⟩ := addTimes?_eq_some_iff.1 harrival
    exact ⟨rfl, hlt⟩
  · rintro ⟨rfl, hlt⟩
    exact ⟨_, addTimes?_eq_some_iff.2 ⟨rfl, hlt⟩, rfl⟩

/-- A window for arrivals. The lower limit holds for returns to the source alone. -/
structure TimeWindow where
  lower : Option Nat := none
  upper : Option Nat := none
deriving DecidableEq, Inhabited

/-- Whether an arrival at a stop is in the window, given where the source is. -/
def TimeWindow.admits (w : TimeWindow) (source : Nat) (s : Stop) : Bool :=
  w.upper.all (s.time ≤ ·) && (s.vertex != source || w.lower.all (· ≤ s.time))

structure Route where
  legs : List Leg
deriving DecidableEq, Inhabited

namespace Route

variable (r : Route)

/-- The time at which a route ends, zero for the empty one. -/
def arrival : Nat :=
  ((r.legs.getLast?).map (·.head.time)).getD 0

def travelTime : Nat :=
  total (r.legs.map (·.travelTime))

/-- The time that a route takes, if each leg takes a time and the sum fits. -/
def travelTime? : Option Nat := do
  totalTime? (← r.legs.mapM Leg.travelTime?)

/-- The vertices on the way, with the one where the route starts. -/
def vertices : List Nat :=
  (r.legs.take 1).map (·.tail.vertex) ++ r.legs.map (·.head.vertex)

def cost {α : Type} [Scalar α] (cost : Nat → α) : α :=
  Scalar.sum (r.legs.map fun leg => cost leg.edge)

def cost? {α : Type} [Scalar α] (cost : Nat → Option α) : Option α :=
  (r.legs.mapM fun leg => cost leg.edge).map Scalar.sum

def isConnected : Bool :=
  (r.legs.zip (r.legs.drop 1)).all fun (a, b) => a.head == b.tail

/-- Whether the vertices of a list are all different and differ from those seen before. There is no
answer if a vertex beyond the first `n` comes before the first repetition. -/
def visitsOnce? (n : Nat) (seen : List Nat) : List Nat → Option Bool
  | [] => some true
  | v :: rest =>
    if n ≤ v then none
    else if seen.contains v then some false
    else visitsOnce? n (v :: seen) rest

/-- Whether a route leaves the source at time zero, enters every vertex once and ends at the
source. There is no answer if only the visits are in question and one is to an unknown vertex. -/
def isTour? (N : Network) : Option Bool :=
  if r.legs.length = N.dimension ∧ r.isConnected ∧
      (r.legs.head?).map (·.tail) = some ⟨N.source, 0⟩ ∧
      (r.legs.getLast?).map (·.head.vertex) = some N.source then
    visitsOnce? N.dimension [] (r.legs.map (·.head.vertex))
  else some false

def isTour (N : Network) : Bool :=
  r.isTour? N == some true

end Route

def Stop.toJson (s : Stop) : Json :=
  .object [("time", .nat s.time), ("vertex", .nat s.vertex)]

def Leg.toJson (leg : Leg) : Json :=
  .object [("edge", .nat leg.edge), ("source", leg.tail.toJson), ("target", leg.head.toJson)]

def Route.toJson (r : Route) : Json :=
  .object [("edges", .array (r.legs.map Leg.toJson))]

end TourPricing
