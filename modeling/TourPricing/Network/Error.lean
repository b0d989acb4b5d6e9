namespace TourPricing

/-- What is wrong with a network or with its text. Vertices are counted from zero. -/
inductive NetworkError where
  | empty
  | sourceOutOfRange (source dimension : Nat)
  | unknownVertex (source target : Nat)
  | selfLoop (v : Nat)
  | noTravelTime (source target : Nat)
  | invalid (item : String)
  | unknownKey (key : String)
  | outsideSection (line : String)
  | malformed (line : String)
  | zeroId
  | coordinateCount (expected found : Nat)
  /-- The default horizon does not fit. -/
  | timeOverflow
deriving DecidableEq

def NetworkError.message : NetworkError → String
  | .empty => "Instance must contain at least one vertex"
  | .sourceOutOfRange s n => s!"Source {s} out of range (dimension {n})"
  | .unknownVertex u v => s!"Edge {u} -> {v} references an unknown vertex"
  | .selfLoop v => s!"Self-loop on vertex {v}"
  | .noTravelTime u v => s!"Edge {u} -> {v} has zero travel time"
  | .invalid item => "Invalid " ++ item
  | .unknownKey key => "Unknown header key: " ++ key
  | .outsideSection line => "Unexpected line outside of a section: " ++ line
  | .malformed line => "Malformed line: " ++ line
  | .zeroId => "Vertex ids are 1-indexed"
  | .coordinateCount expected found => s!"Expected {expected} coordinates, found {found}"
  | .timeOverflow => "The default horizon does not fit"

end TourPricing
