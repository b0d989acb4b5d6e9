import TourPricing.Proofs.Expansion.Reachability
import TourPricing.Proofs.Pricing.TourBound
import TourPricing.Proofs.Search.Narrowing

namespace TourPricing

theorem Network.exists_least_le_of_imp {α : Type} [Scalar α] [LawfulScalar α] {N M : Network}
    (hnet : N = M) {cost : Nat → α} (hfin : M.FiniteCosts cost) {keep keep' : Edge → Bool}
    (h : ∀ e ∈ M.edges, keep e = true → keep' e = true) :
    ∀ m ∈ ((N.edges.toList.filter keep).map fun e => cost e.id).foldl Scalar.least none,
      ∃ k ∈ ((M.edges.toList.filter keep').map fun e => cost e.id).foldl Scalar.least none,
        k ≤ m := by
  subst hnet
  apply (N.isLeastOf_costs hfin keep).le_of_subset (N.isLeastOf_costs hfin keep')
  rintro c ⟨e, he, hk, rfl⟩
  exact ⟨e, he, h e he hk, rfl⟩

section

variable {α : Type} [Scalar α] {least least' : Option α}

/-- What a bound adds to the objective for each vertex, if the least cost is finite. -/
def boundStep (least : Option α) : α :=
  match least with
  | some c => Scalar.min c (Scalar.ofNat 0)
  | none => Scalar.ofNat 0

theorem lagrangianBound_eq (hfin : ∀ c ∈ least, Scalar.isFinite c = true) (objective : α)
    (n : Nat) :
    lagrangianBound objective least n = objective + boundStep least * Scalar.ofNat n := by
  cases least with
  | none => rfl
  | some c => rw [lagrangianBound, if_pos (hfin c rfl), boundStep]

variable [LawfulScalar α]

theorem isFinite_boundStep (hfin : ∀ c ∈ least, Scalar.isFinite c = true) :
    Scalar.isFinite (boundStep least) = true := by
  cases least with
  | none => exact LawfulScalar.isFinite_zero
  | some c =>
    rcases Scalar.min_eq_or_eq c (Scalar.ofNat 0) with hc | hzero
    · rw [boundStep, hc]
      exact hfin c rfl
    · rw [boundStep, hzero]
      exact LawfulScalar.isFinite_zero

theorem boundStep_mono (h : ∀ m ∈ least, ∃ k ∈ least', k ≤ m) :
    boundStep least' ≤ boundStep least := by
  have hzero : (Scalar.ofNat 0 : α) ≤ Scalar.ofNat 0 :=
    LawfulScalar.le_refl_of_isFinite LawfulScalar.isFinite_zero
  have hle : boundStep least' ≤ Scalar.ofNat 0 := by
    cases least' with
    | none => exact hzero
    | some k => exact Scalar.min_le_right hzero
  cases least with
  | none => exact hle
  | some m =>
    obtain ⟨k, rfl, hkm⟩ := h m rfl
    rcases Scalar.min_eq_or_eq m (Scalar.ofNat 0) with hm | hm
    · have hk : Scalar.min k (Scalar.ofNat 0) ≤ k :=
        Scalar.min_le_left (LawfulScalar.le_refl_of_le hkm).1
      simpa only [boundStep, hm] using LawfulScalar.le_trans hk hkm
    · simpa only [boundStep, hm] using hle

theorem lagrangianBound_le_of_least {objective : α} {n : Nat}
    (hobjective : Scalar.isFinite objective = true)
    (hn : Scalar.isFinite (Scalar.ofNat n : α) = true)
    (hleast : ∀ c ∈ least, Scalar.isFinite c = true)
    (hleast' : ∀ c ∈ least', Scalar.isFinite c = true) (h : ∀ m ∈ least, ∃ k ∈ least', k ≤ m) :
    lagrangianBound objective least' n ≤ lagrangianBound objective least n := by
  rw [lagrangianBound_eq hleast, lagrangianBound_eq hleast']
  apply LawfulScalar.add_le_add_left hobjective
  exact LawfulScalar.mul_le_mul_right hn (isFinite_boundStep hleast') (isFinite_boundStep hleast)
    (boundStep_mono h)

end

theorem lagrangianBound_mono {least least' : Option Rat} (h : ∀ m ∈ least, Scalar.AtMost least' m)
    (objective : Rat) (n : Nat) :
    lagrangianBound objective least' n ≤ lagrangianBound objective least n :=
  lagrangianBound_le_of_least rfl rfl (fun _ _ => rfl) (fun _ _ => rfl) h

namespace Expansion

variable {E F : Expansion} {e : Edge} {leg : Leg}

theorem departuresOf_mono (hN : F.network.WellFormed) (hnet : E.network = F.network)
    (hle : E.horizon ≤ F.horizon) (hl : leg ∈ E.departuresOf e) : leg ∈ F.departuresOf e := by
  obtain ⟨t, ht, harrive, rfl⟩ := mem_departuresOf.1 hl
  rw [mem_departures (hnet ▸ hN), hnet] at ht
  exact mem_departuresOf.2 ⟨t, (mem_departures hN).2 ⟨ht.1.trans hle, ht.2⟩, harrive.trans hle, rfl⟩

end Expansion

theorem TimeWindow.Inside.effective {w v : TimeWindow} (h : w.Inside v) (P : EdgePricing) :
    (P.effective w).Inside (P.effective v) := by
  rw [EdgePricing.effective, EdgePricing.effective]
  split
  · exact ⟨h.lower, fun t ht => absurd ht (Option.not_mem_none t)⟩
  · exact h

namespace Search

variable {A B : Search Rat}

theorem Tightens.free (h : A.Tightens B) {e : Nat} (hfree : (!A.forbidden.contains e) = true) :
    (!B.forbidden.contains e) = true := by
  rw [Bool.not_eq_true', ← Bool.not_eq_true, List.contains_iff_mem] at hfree ⊢
  exact fun hf => hfree (h.forbidden e hf)

theorem Tightens.atMost_find (h : A.Tightens B) (hN : B.expansion.network.WellFormed)
    (P : EdgePricing) : ∀ m ∈ (P.find A.expansion A.cost A.forbidden A.window).2,
      Scalar.AtMost (P.find B.expansion B.cost B.forbidden B.window).2 m := by
  rw [h.cost_eq]
  apply Network.exists_least_le_of_imp h.network_eq (Network.finiteCosts _ _)
  intro e _ hk
  rw [Bool.and_eq_true, EdgePricing.considers_iff] at hk ⊢
  obtain ⟨hfree, leg, hl, hadm⟩ := hk
  rw [h.network_eq] at hadm
  exact ⟨h.free hfree, leg, Expansion.departuresOf_mono hN h.network_eq h.horizon_le hl,
    (h.window.effective P).admits hadm⟩

theorem Tightens.atMost_leastAdmittedCost (h : A.Tightens B)
    (hN : B.expansion.network.WellFormed) :
    ∀ m ∈ A.expansion.leastAdmittedCost A.cost A.forbidden A.window,
      Scalar.AtMost (B.expansion.leastAdmittedCost B.cost B.forbidden B.window) m := by
  rw [h.cost_eq]
  apply Network.exists_least_le_of_imp h.network_eq (Network.finiteCosts _ _)
  intro e _ hk
  rw [Bool.and_eq_true, List.any_eq_true] at hk ⊢
  obtain ⟨hfree, leg, hl, hadm⟩ := hk
  rw [h.network_eq] at hadm
  exact ⟨h.free hfree, leg, Expansion.departuresOf_mono hN h.network_eq h.horizon_le hl,
    h.window.admits hadm⟩

/-- To tighten the conditions and the restriction of a search makes neither its least edge cost nor
its bound smaller, and its first path no cheaper, as long as no label is dropped. The least costs
over all edges grow in any case. -/
theorem pricing_mono_of_tightens (h : A.Tightens B) (hN : B.expansion.network.WellFormed) :
    (∀ r q : Restriction, A.rule = r.rule → B.rule = q.rule → q.rank ≤ r.rank →
      A.run.exhaustive = true → B.run.exhaustive = true →
      (∀ m ∈ A.run.leastEdgeCost, Scalar.AtMost B.run.leastEdgeCost m) ∧
      (∀ objective,
        PathPricing.bound B.run B.expansion B.cost B.forbidden B.window objective ≤
          PathPricing.bound A.run A.expansion A.cost A.forbidden A.window objective) ∧
      (A.limits.threshold = B.limits.threshold → 1 ≤ B.limits.maxPaths →
        ∀ p ∈ A.run.paths.head?, ∃ q ∈ B.run.paths.head?, q.1 ≤ p.1)) ∧
    (∀ P : EdgePricing, ∀ m ∈ (P.find A.expansion A.cost A.forbidden A.window).2,
      Scalar.AtMost (P.find B.expansion B.cost B.forbidden B.window).2 m) ∧
    ∀ m ∈ A.expansion.leastAdmittedCost A.cost A.forbidden A.window,
      Scalar.AtMost (B.expansion.leastAdmittedCost B.cost B.forbidden B.window) m := by
  refine ⟨fun r q hr hq hrank heA heB => ?_, h.atMost_find hN, h.atMost_leastAdmittedCost hN⟩
  have hnarrows := h.narrows hr hq hrank
  have hd : B.rule.IsDominance B.expansion.network.dimension := hq ▸ q.isDominance _
  have hleast := hnarrows.atMost_least hN hd heB
  refine ⟨hleast, fun objective => ?_, fun ht hmax p hp => ?_⟩
  · rw [PathPricing.bound, PathPricing.bound, if_pos heA, if_pos heB, h.network_eq]
    exact lagrangianBound_mono hleast objective _
  · exact hnarrows.exists_head_le hN hd heB hmax ht.le p (List.mem_of_mem_head? hp)

end Search

def Search.free : Search Rat :=
  { Search.triangle with window := {}, rule := Restriction.twoCycleFree.rule }

def Search.blocked : Search Rat :=
  { Search.triangle with
    expansion := { network := Network.triangle, horizon := 5 }
    forbidden := [1] }

theorem Search.pricing_mono_blocked : Search.blocked.run.exhaustive = true ∧
    Search.free.run.exhaustive = true ∧ ∃ p q, Search.blocked.run.paths.head? = some p ∧
      Search.free.run.paths.head? = some q ∧ q.1 ≤ p.1 := by
  have htightens : Search.blocked.Tightens Search.free :=
    ⟨rfl, rfl, by decide, by decide, by decide, fun _ ht => nomatch ht⟩
  have hN : Search.free.expansion.network.WellFormed :=
    Network.wellFormed_of_ofArcs Network.ofArcs_triangle
  have hblocked : Search.blocked.run.exhaustive = true := by decide +kernel
  have hfree : Search.free.run.exhaustive = true := by decide +kernel
  obtain ⟨hsearch, _⟩ := Search.pricing_mono_of_tightens htightens hN
  obtain ⟨_, _, hpaths⟩ := hsearch .holeFree .twoCycleFree rfl rfl le_top hblocked hfree
  have hlen : Search.blocked.run.paths.length = 1 := by
    rw [run_paths_length]
    decide +kernel
  cases hhead : Search.blocked.run.paths with
  | nil =>
    rw [hhead] at hlen
    cases hlen
  | cons p rest =>
    rw [hhead] at hpaths
    obtain ⟨q, hq, hle⟩ := hpaths rfl (by decide) p rfl
    exact ⟨hblocked, hfree, p, q, rfl, hq, hle⟩

end TourPricing
