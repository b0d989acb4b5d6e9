import TourPricing.Proofs.Expansion.Reachability
import TourPricing.Proofs.Search.Coverage

namespace TourPricing

namespace Search

variable {α : Type} {S : Search α} {leg : Leg} {m : α}

/-- A search looks at a leg if the leg goes on from one of its walks and is allowed. -/
def LooksAt (S : Search α) (leg : Leg) : Prop :=
  ∃ legs s, S.Walk legs s ∧ leg ∈ S.expansion.outgoing s ∧ S.allows leg = true

theorem LooksAt.exists_departure (hl : S.LooksAt leg) (h : S.expansion.network.WellFormed) :
    leg.edge ∉ S.forbidden ∧ S.window.admits S.expansion.network.source leg.head = true ∧
      ∃ e ∈ S.expansion.network.edges, e.id = leg.edge ∧ leg ∈ S.expansion.departuresOf e := by
  obtain ⟨legs, s, w, ho, ha⟩ := hl
  obtain ⟨hfree, hadm⟩ := allows_iff.1 ha
  obtain ⟨e, he, hdep⟩ := (Expansion.exists_outgoing_iff h).1 ⟨s, w.mem_stops h, ho⟩
  obtain ⟨t, _, _, rfl⟩ := Expansion.mem_departuresOf.1 hdep
  exact ⟨hfree, hadm, e, he, rfl, hdep⟩

variable [Scalar α]

theorem leastEdgeCost_extendBy {legs : List Leg} {state : Frontier (List (Label α)) × Progress α}
    (h : (S.extendBy (S.labelOf legs) state leg).2.leastEdgeCost = some m) :
    state.2.leastEdgeCost = some m ∨ S.allows leg = true ∧ S.cost leg.edge = m := by
  obtain ⟨F, progress⟩ := state
  cases ha : S.allows leg with
  | false =>
    rw [extendBy_of_not_allows ha] at h
    exact .inl h
  | true =>
    have hleast : Scalar.least progress.leastEdgeCost (S.cost leg.edge) = some m := by
      by_cases hm : S.MayTake legs leg
      · rwa [extendBy_of_mayTake hm] at h
      · rwa [extendBy_of_not_mayTake ha hm] at h
    exact (Scalar.eq_or_eq_of_least hleast).imp_right fun hc => ⟨rfl, hc⟩

theorem exists_looksAt_of_least (h : S.expansion.network.WellFormed)
    (hm : S.run.leastEdgeCost = some m) : ∃ leg, S.LooksAt leg ∧ S.cost leg.edge = m := by
  let I : Frontier (List (Label α)) × Progress α → Prop := fun state =>
    ∀ m, state.2.leastEdgeCost = some m → ∃ leg, S.LooksAt leg ∧ S.cost leg.edge = m
  obtain ⟨_, _, _, hI⟩ := explore_induction (I := I) h (fun m hm => nomatch hm)
    fun s bucket rest progress htr hI => by
      cases hn : S.expansion.network.isTerminal s with
      | true =>
        rw [settle_of_terminal hn]
        exact hI
      | false =>
        have hrest : I (⟨rest⟩, progress) := hI
        apply settle_induction hn hrest
        intro x hx leg hl state hstate m hm
        obtain ⟨legs, w, rfl⟩ := htr.rest.1 x hx
        rcases leastEdgeCost_extendBy hm with hm | ⟨ha, hc⟩
        · exact hstate m hm
        · exact ⟨leg, ⟨legs, s, w, hl, ha⟩, hc⟩
  exact hI m hm

theorem isFinite_of_least (h : S.expansion.network.WellFormed)
    (hfin : S.expansion.network.FiniteCosts S.cost) :
    ∀ m ∈ S.run.leastEdgeCost, Scalar.isFinite m = true := by
  intro m hm
  obtain ⟨leg, hl, rfl⟩ := exists_looksAt_of_least h hm
  obtain ⟨_, _, e, he, hid, _⟩ := hl.exists_departure h
  rw [← hid]
  exact hfin e he

variable [LawfulScalar α]

/-- An exhaustive search accounts for every edge that it looks at. -/
theorem exists_le_of_looksAt (h : S.expansion.network.WellFormed)
    (hfin : S.expansion.network.FiniteCosts S.cost)
    (hd : S.rule.IsDominance S.expansion.network.dimension) (he : S.run.exhaustive = true)
    (hl : S.LooksAt leg) : ∃ m ∈ S.run.leastEdgeCost, m ≤ S.cost leg.edge := by
  obtain ⟨legs, s, w, hl, ha⟩ := hl
  exact (settled_of_exhaustive h hfin hd he w).looked (h.not_terminal hl) leg hl ha

/-- The least edge cost of an exhaustive search under a restriction is the least cost of all legs
that are free, in the window and leave a stop to which a walk of the search leads, whether or not
the walk may enter the vertex at their end. Without such a leg there is no least edge cost. -/
theorem run_least_of_exhaustive (S : Search α) (r : Restriction)
    (h : S.expansion.network.WellFormed) (hfin : S.expansion.network.FiniteCosts S.cost)
    (hr : S.rule = r.rule) (he : S.run.exhaustive = true) :
    Scalar.IsLeastOf {c | ∃ leg, S.LooksAt leg ∧ S.cost leg.edge = c} S.run.leastEdgeCost ∧
      (S.run.leastEdgeCost = none ↔ ∀ leg, ¬ S.LooksAt leg) := by
  have hd : S.rule.IsDominance S.expansion.network.dimension := hr ▸ r.isDominance _
  have hleast : Scalar.IsLeastOf {c | ∃ leg, S.LooksAt leg ∧ S.cost leg.edge = c}
      S.run.leastEdgeCost := by
    apply Scalar.isLeastOf_of_mem_of_le
    · intro m hm
      exact exists_looksAt_of_least h hm
    · rintro c ⟨leg, hl, rfl⟩
      exact exists_le_of_looksAt h hfin hd he hl
  refine ⟨hleast, hleast.eq_none_iff.trans ?_⟩
  constructor
  · intro hnone leg hl
    exact hnone _ ⟨leg, hl, rfl⟩
  · rintro hnone c ⟨leg, hl, _⟩
    exact hnone leg hl

end Search

def Network.shuttle : Network :=
  { Network.withArcs "shuttle" 3 0 [⟨0, 1, 1⟩, ⟨1, 2, 1⟩, ⟨2, 1, 1⟩, ⟨2, 0, 1⟩] with horizon := 10 }

theorem Network.ofArcs_shuttle : Network.ofArcs "shuttle" 3 0
    [⟨0, 1, 1⟩, ⟨1, 2, 1⟩, ⟨2, 1, 1⟩, ⟨2, 0, 1⟩] (some 10) = .ok Network.shuttle := rfl

def Search.shuttle : Search Rat :=
  { expansion := Network.shuttle.expand, cost := fun e => if e = 2 then -5 else 1, forbidden := []
    window := {}, rule := Restriction.holeFree.rule, limits := .standard }

theorem Search.run_least_shuttle : Search.shuttle.run.exhaustive = true ∧
    IsLeast {c | ∃ leg, Search.shuttle.LooksAt leg ∧ Search.shuttle.cost leg.edge = c} (-5) := by
  have h : Search.shuttle.expansion.network.WellFormed :=
    Network.wellFormed_of_ofArcs Network.ofArcs_shuttle
  have he : Search.shuttle.run.exhaustive = true := by decide +kernel
  have hleast : Search.shuttle.run.leastEdgeCost = some (-5) := by decide +kernel
  obtain ⟨hexact, _⟩ :=
    run_least_of_exhaustive Search.shuttle .holeFree h (Network.finiteCosts _ _) rfl he
  rw [hleast] at hexact
  exact ⟨he, hexact⟩

end TourPricing
