import TourPricing.Network.Build

namespace TourPricing.Network

variable {name : String} {dimension source : Nat} {arcs : List Arc}
  {points : List (Float × Float)} {horizon : Option Nat} {N : Network}

def onArcs (name : String) (dimension source : Nat) (arcs : List Arc) (horizon : Option Nat) :
    Network :=
  let N := withArcs name dimension source arcs
  { N with horizon := horizon.getD N.defaultHorizon }

/-- Arcs make a network if the source is a vertex, no arc has a fault, and the default horizon fits
unless another one is given. -/
theorem ofArcs_eq_ok_iff : ofArcs name dimension source arcs horizon = .ok N ↔
    source < dimension ∧ (∀ a ∈ arcs, a.fault? dimension = none) ∧
      (horizon = none → (withArcs name dimension source arcs).defaultHorizon < timeLimit) ∧
      N = onArcs name dimension source arcs horizon := by
  rw [← List.findSome?_eq_none_iff, ofArcs]
  split
  · rename_i hzero
    subst hzero
    exact ⟨fun h => (by cases h), fun h => absurd h.1 (Nat.not_lt_zero _)⟩
  split
  · rename_i hle
    exact ⟨fun h => (by cases h), fun h => absurd h.1 (Nat.not_lt.2 hle)⟩
  rename_i hlt
  split
  · rename_i fault hfault
    rw [hfault]
    exact ⟨fun h => (by cases h), fun h => (by cases h.2.1)⟩
  rename_i hnone
  have hN := wellFormed_withArcs name (Nat.not_le.1 hlt)
    (List.findSome?_eq_none_iff.1 hnone)
  dsimp only
  split
  · rename_i ht
    obtain ⟨rfl, hdefault⟩ := Option.or_eq_none_iff.1 ht
    refine ⟨fun h => (by cases h), fun h => ?_⟩
    have hfits := (withArcs name dimension source arcs).defaultHorizon?_eq_some_iff.2
      ⟨fun v hv => hN.isSound_of_lt hv, rfl, h.2.2.1 rfl⟩
    rw [hdefault] at hfits
    cases hfits
  · rename_i t ht
    have htime : t = (onArcs name dimension source arcs horizon).horizon ∧
        (horizon = none → (withArcs name dimension source arcs).defaultHorizon < timeLimit) := by
      cases horizon with
      | some given => exact ⟨(Option.some.inj ht).symm, nofun⟩
      | none =>
        obtain ⟨-, rfl, hfits⟩ := defaultHorizon?_eq_some_iff _ |>.1 ht
        exact ⟨rfl, fun _ => hfits⟩
    obtain ⟨rfl, hfits⟩ := htime
    constructor
    · intro h
      exact ⟨Nat.not_le.1 hlt, hnone, hfits, (Except.ok.inj h).symm⟩
    · rintro ⟨_, _, _, rfl⟩
      rfl

theorem fault?_of_mem_arcsBetween {a : Arc} (ha : a ∈ arcsBetween points) :
    a.fault? points.length = none := by
  obtain ⟨⟨p, i⟩, hi, hj⟩ := List.mem_flatMap.1 ha
  obtain ⟨⟨q, j⟩, hmem, rfl⟩ := List.mem_map.1 hj
  obtain ⟨hj, hne⟩ := List.mem_filter.1 hmem
  have hne' : i ≠ j := fun h => bne_iff_ne.1 hne h.symm
  rw [Arc.fault?_eq_none]
  exact ⟨(List.mem_zipIdx' hi).1, (List.mem_zipIdx' hj).1, hne',
    Nat.lt_of_lt_of_le Nat.one_pos (Nat.le_max_left _ _)⟩

def onPoints (name : String) (points : List (Float × Float)) (source : Nat)
    (horizon : Option Nat) : Network :=
  { onArcs name points.length source (arcsBetween points) horizon with
    vertices := points.zipIdx.map fun (p, v) => ⟨v, p.1, p.2⟩ }

theorem ofCoordinates_eq_ok_iff : ofCoordinates name points source horizon = .ok N ↔
    source < points.length ∧
      (horizon = none →
        (withArcs name points.length source (arcsBetween points)).defaultHorizon < timeLimit) ∧
      N = onPoints name points source horizon := by
  rw [ofCoordinates]
  cases hM : ofArcs name points.length source (arcsBetween points) horizon with
  | error fault =>
    refine ⟨fun h => (by cases h), fun h => ?_⟩
    rw [ofArcs_eq_ok_iff.2 ⟨h.1, fun a ha => fault?_of_mem_arcsBetween ha, h.2.1, rfl⟩] at hM
    cases hM
  | ok M =>
    obtain ⟨hs, _, hfits, rfl⟩ := ofArcs_eq_ok_iff.1 hM
    constructor
    · intro h
      exact ⟨hs, hfits, (Except.ok.inj h).symm⟩
    · rintro ⟨_, _, rfl⟩
      rfl

end TourPricing.Network
