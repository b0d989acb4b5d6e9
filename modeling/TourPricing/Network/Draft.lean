import TourPricing.Json.Basic
import TourPricing.Network.Basic

namespace TourPricing

def Json.index? : Json → Option Nat :=
  Json.nat? indexLimit

def Json.time? : Json → Option Nat :=
  Json.nat? timeLimit

def Vertex.toJson (v : Vertex) : Json :=
  .object [("id", .nat v.id), ("x", .float v.x), ("y", .float v.y)]

def Vertex.ofJson? (j : Json) : Option Vertex := do
  let r ← j.record? ["id", "x", "y"]
  pure ⟨← Json.field? r "id" Json.index?, ← Json.field? r "x" Json.float?,
    ← Json.field? r "y" Json.float?⟩

def Edge.toJson (e : Edge) : Json :=
  .object [("id", .nat e.id), ("source", .nat e.source), ("target", .nat e.target),
    ("travel_time", .nat e.travelTime)]

def Edge.ofJson? (j : Json) : Option Edge := do
  let r ← j.record? ["id", "source", "target", "travel_time"]
  pure ⟨← Json.field? r "id" Json.index?, ← Json.field? r "source" Json.index?,
    ← Json.field? r "target" Json.index?, ← Json.field? r "travel_time" Json.time?⟩

namespace Draft

def toJson (d : Draft) : Json :=
  .object [("name", .text d.name), ("comment", .text d.comment), ("dimension", .nat d.dimension),
    ("source", .nat d.source), ("horizon", .nat d.horizon),
    ("lower_bound", .option .nat d.lowerBound),
    ("vertices", .array (d.vertices.map Vertex.toJson)),
    ("edges", .array (d.edges.toList.map Edge.toJson))]

def ofJson? (j : Json) : Option Draft := do
  let r ← j.record?
    ["name", "comment", "dimension", "source", "horizon", "lower_bound", "vertices", "edges"]
  pure
    { name := ← Json.field? r "name" Json.text?
      comment := ← Json.field? r "comment" Json.text?
      dimension := ← Json.field? r "dimension" Json.index?
      source := ← Json.field? r "source" Json.index?
      horizon := ← Json.field? r "horizon" Json.time?
      lowerBound := ← Json.fieldOr? r "lower_bound" (Json.option? Json.time?) none
      vertices := ← Json.field? r "vertices" (Json.array? Vertex.ofJson?)
      edges := (← Json.field? r "edges" (Json.array? Edge.ofJson?)).toArray }

/-- The network that a draft describes, if every edge leaves a vertex. The lists at the vertices
hold the numbers that edges have in the draft; the network finds an edge by its place in the
draft. -/
def network? (d : Draft) : Option Network :=
  if d.edges.all (·.source < d.dimension) then
    some { d with
      edges := d.edges.mapIdx fun i e => { e with id := i }
      outgoing := adjacency d.dimension d.edges
      numbered := by simp
      size_outgoing := by simp [adjacency] }
  else none

end Draft

end TourPricing
