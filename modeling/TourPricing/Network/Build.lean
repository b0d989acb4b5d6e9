import TourPricing.Network.Basic
import TourPricing.Network.Error

namespace TourPricing

/-- An edge that has no number yet. -/
structure Arc where
  source : Nat
  target : Nat
  travelTime : Nat
deriving DecidableEq, Inhabited

/-- What keeps an arc out of a network with `dimension` vertices. -/
def Arc.fault? (dimension : Nat) (a : Arc) : Option NetworkError :=
  if dimension ≤ a.source ∨ dimension ≤ a.target then some (.unknownVertex a.source a.target)
  else if a.source = a.target then some (.selfLoop a.source)
  else if a.travelTime = 0 then some (.noTravelTime a.source a.target)
  else none

def numbered (arcs : List Arc) : Array Edge :=
  (arcs.zipIdx.map fun (a, i) => Edge.mk i a.source a.target a.travelTime).toArray

theorem size_numbered (arcs : List Arc) : (numbered arcs).size = arcs.length := by
  simp [numbered]

theorem getElem_numbered (arcs : List Arc) (i : Nat) (h : i < arcs.length)
    (hi : i < (numbered arcs).size) :
    (numbered arcs)[i] = ⟨i, arcs[i].source, arcs[i].target, arcs[i].travelTime⟩ := by
  simp [numbered]

theorem Arc.fault?_eq_none {n : Nat} {a : Arc} :
    a.fault? n = none ↔ a.source < n ∧ a.target < n ∧ a.source ≠ a.target ∧ 0 < a.travelTime := by
  unfold Arc.fault?
  split
  · simp; omega
  · split
    · simp; omega
    · split
      · simp; omega
      · simp; omega

namespace Network

/-- The network with the given arcs as edges, whatever they are. -/
def withArcs (name : String) (dimension source : Nat) (arcs : List Arc) : Network :=
  { name, comment := "", dimension, source, horizon := 0, lowerBound := none
    vertices := (List.range dimension).map fun v => ⟨v, 0, 0⟩
    edges := TourPricing.numbered arcs
    numbered := fun i h => by rw [getElem_numbered _ _ (size_numbered arcs ▸ h)] }

/-- The network with the given arcs as edges. Its horizon is the default one unless it is given; the
default one has to fit. -/
def ofArcs (name : String) (dimension source : Nat) (arcs : List Arc) (horizon : Option Nat) :
    Except NetworkError Network :=
  if dimension = 0 then .error .empty
  else if dimension ≤ source then .error (.sourceOutOfRange source dimension)
  else
    match arcs.findSome? (Arc.fault? dimension) with
    | some fault => .error fault
    | none =>
      let N := withArcs name dimension source arcs
      match horizon.or N.defaultHorizon? with
      | none => .error .timeOverflow
      | some t => .ok { N with horizon := t }

theorem wellFormed_withArcs (name : String) {dimension source : Nat} {arcs : List Arc}
    (hs : source < dimension) (hf : ∀ a ∈ arcs, a.fault? dimension = none) :
    (withArcs name dimension source arcs).WellFormed := by
  refine ⟨hs, fun e he => ?_, rfl⟩
  obtain ⟨i, hi, rfl⟩ := Array.mem_iff_getElem.1 he
  have hi' : i < arcs.length := size_numbered arcs ▸ hi
  have ha := Arc.fault?_eq_none.1 (hf _ (List.getElem_mem hi'))
  simpa [withArcs, getElem_numbered _ _ hi'] using ha

theorem wellFormed_of_ofArcs {name : String} {dimension source : Nat} {arcs : List Arc}
    {horizon : Option Nat} {N : Network} (h : ofArcs name dimension source arcs horizon = .ok N) :
    N.WellFormed := by
  unfold ofArcs at h
  split at h
  · cases h
  split at h
  · cases h
  next hs =>
    split at h
    · cases h
    next hf =>
      dsimp only at h
      split at h
      · cases h
      cases h
      have hN := wellFormed_withArcs name (Nat.not_le.1 hs) (List.findSome?_eq_none_iff.1 hf)
      exact ⟨hN.source_lt, hN.edge_ok, hN.outgoing_eq⟩

/-- The distance of two points as a travel time: rounded to a whole number, and at least one. -/
def travelTimeBetween (p q : Float × Float) : Nat :=
  let dx := p.1 - q.1
  let dy := p.2 - q.2
  max 1 (Float.sqrt (dx * dx + dy * dy)).round.toUInt32.toNat

def arcsBetween (points : List (Float × Float)) : List Arc :=
  points.zipIdx.flatMap fun (p, i) =>
    (points.zipIdx.filter (·.2 != i)).map fun (q, j) => ⟨i, j, travelTimeBetween p q⟩

/-- The complete network on points in the plane. -/
def ofCoordinates (name : String) (points : List (Float × Float)) (source : Nat)
    (horizon : Option Nat) : Except NetworkError Network := do
  let N ← ofArcs name points.length source (arcsBetween points) horizon
  pure { N with vertices := points.zipIdx.map fun (p, v) => ⟨v, p.1, p.2⟩ }

end Network

end TourPricing
