import TourPricing.Proofs.Pricing.SmoothedBounds

namespace TourPricing

variable {α : Type} [Scalar α] {E : Expansion} {P : PathPricing} {C : Smoothing α}
  {state : SmoothingState α} {round : Round α}

/-- A round as it is priced with a center: between the prices there and its own. -/
def Round.smoothed (round : Round α) (alpha : α) (center : StabilityCenter α) : Round α :=
  { round with
    duals := center.duals.interpolate alpha round.duals
    objective := alpha * center.objective + (Scalar.ofNat 1 - alpha) * round.objective }

def Round.improving (round : Round α) (P : PathPricing) (E : Expansion) (alpha : α)
    (center : StabilityCenter α) : List Route :=
  (((round.smoothed alpha center).search P E).run.paths.map (·.2)).filter fun r =>
    r.cost (CostKind.reduced.cost E.network round.duals) < -Scalar.costTolerance

namespace Smoothing

def closes (C : Smoothing α) (round : Round α) (state : SmoothingState α) : Bool :=
  C.enabled && round.kind == .reduced && state.gapClosed round

/-- Whether a round is one misprice too many: priced with a center, it finds no route. -/
def exhausts (C : Smoothing α) (P : PathPricing) (E : Expansion) (round : Round α)
    (state : SmoothingState α) (center : StabilityCenter α) : Bool :=
  (contradicted? ((round.smoothed state.alpha center).bound P E) round.incumbent
      C.tolerance).isNone &&
    (round.improving P E state.alpha center).isEmpty && C.maxMisprices ≤ state.misprices + 1

/-- Whether a round gives up the center. -/
def resets (C : Smoothing α) (P : PathPricing) (E : Expansion) (round : Round α)
    (state : SmoothingState α) : Bool :=
  C.enabled && round.kind == .reduced &&
    (state.gapClosed round || state.center.any (C.exhausts P E round state))

def improve (C : Smoothing α) (state : SmoothingState α) : SmoothingState α :=
  { state with alpha := Scalar.min (state.alpha + C.stepUp) C.maxAlpha, misprices := 0 }

def close (C : Smoothing α) (state : SmoothingState α) : SmoothingState α :=
  C.resetCenter { state with proveGap := state.proveGap * C.proveGapFactor }

/-- What a round comes to, with one case for each way in which it can be priced. -/
inductive Step (C : Smoothing α) (P : PathPricing) (E : Expansion) (round : Round α)
    (state : SmoothingState α) : Outcome α → Prop
  | delegated (h : round.kind = .farkas ∨ C.enabled = false) :
    Step C P E round state (.ok (P.price E round), state)
  | closed (hk : C.closes round state = true) :
    Step C P E round state (C.priceTrue P E round (C.close state))
  | uncentered (hkeeps : C.resets P E round state = false) (hcenter : state.center = none) :
    Step C P E round state (C.priceTrue P E round state)
  | contradicted (hkeeps : C.resets P E round state = false) (fault : Contradiction α) :
    Step C P E round state (.error fault, state)
  | improved (hkeeps : C.resets P E round state = false) (hcenter : state.center ≠ none)
    (duals : Duals α) (objective : α) (lower : Option α) (routes : List Route) :
    Step C P E round state
      (.ok ⟨[], routes, lower⟩, C.improve (state.moveCenter duals objective lower))
  | mispriced (hopen : C.closes round state = false)
    (hlimit : C.resets P E round state = decide (C.maxMisprices ≤ state.misprices + 1))
    (hcenter : state.center ≠ none) (duals : Duals α) (objective : α) (lower : Option α)
    (fallback : Outcome α)
    (hfallback : fallback =
      C.priceTrue P E round (C.misprice (state.moveCenter duals objective lower))) :
    Step C P E round state
      (fallback.1.map fun r => { r with lowerBound := bestOf r.lowerBound lower }, fallback.2)

section

variable (he : C.enabled = true) (hk : round.kind = .reduced)

include he hk

theorem closes_eq : C.closes round state = state.gapClosed round := by
  rw [closes, he, hk]
  rfl

theorem resets_eq : C.resets P E round state =
    (state.gapClosed round || state.center.any (C.exhausts P E round state)) := by
  rw [resets, he, hk]
  rfl

theorem step_priceCentered (hg : state.gapClosed round = false) {center : StabilityCenter α}
    (hc : state.center = some center) :
    Step C P E round state (C.priceCentered P E round state center) := by
  have hresets : C.resets P E round state = C.exhausts P E round state center := by
    rw [resets_eq he hk, hg, hc]
    rfl
  have hcenter : state.center ≠ none := by
    rw [hc]
    exact Option.some_ne_none _
  rw [priceCentered]
  dsimp only
  split
  · rename_i value hv
    refine .contradicted ?_ _
    have hsome : contradicted? ((round.smoothed state.alpha center).bound P E) round.incumbent
        C.tolerance = some value := hv
    rw [hresets, exhausts, hsome]
    rfl
  · rename_i hnone
    have hnone : contradicted? ((round.smoothed state.alpha center).bound P E) round.incumbent
        C.tolerance = none := hnone
    split
    · rename_i hempty
      have hempty : (round.improving P E state.alpha center).isEmpty = true := hempty
      refine .mispriced ?_ ?_ hcenter _ _ _ _ rfl
      · rw [closes_eq he hk, hg]
      · rw [hresets, exhausts, hnone, hempty]
        rfl
    · rename_i hempty
      have hempty : (round.improving P E state.alpha center).isEmpty = false :=
        Bool.eq_false_iff.2 hempty
      refine .improved ?_ hcenter _ _ _ _
      rw [hresets, exhausts, hempty, Bool.and_false, Bool.false_and]

end

theorem step_price (C : Smoothing α) (P : PathPricing) (E : Expansion) (round : Round α)
    (state : SmoothingState α) : Step C P E round state (C.price P E round state) := by
  by_cases hdelegates : round.kind = .farkas ∨ C.enabled = false
  · rw [price_of_delegates hdelegates]
    exact .delegated hdelegates
  · have hk : round.kind = .reduced := by
      cases hk : round.kind with
      | reduced => rfl
      | farkas => exact absurd (.inl hk) hdelegates
    have he : C.enabled = true := by
      cases he : C.enabled with
      | true => rfl
      | false => exact absurd (.inr he) hdelegates
    cases hg : state.gapClosed round with
    | true =>
      rw [price_of_gapClosed he hk hg]
      exact .closed (by rw [closes_eq he hk, hg])
    | false =>
      cases hc : state.center with
      | none =>
        rw [price_of_no_center he hk hg hc]
        exact .uncentered (by rw [resets_eq he hk, hg, hc]; rfl) hc
      | some center =>
        rw [price_of_center he hk hg hc]
        exact step_priceCentered he hk hg hc

theorem closes_of_not_resets (h : C.resets P E round state = false) :
    C.closes round state = false := by
  rw [resets, Bool.and_eq_false_iff, Bool.or_eq_false_iff] at h
  rw [closes, Bool.and_eq_false_iff]
  exact h.imp_right And.left

theorem resets_of_closes (h : C.closes round state = true) : C.resets P E round state = true := by
  rw [closes, Bool.and_eq_true] at h
  rw [resets, h.1, h.2]
  rfl

theorem resets_of_delegates (h : round.kind = .farkas ∨ C.enabled = false) :
    C.resets P E round state = false := by
  rcases h with hk | he
  · rw [resets, hk]
    simp
  · rw [resets, he]
    rfl

/-- Pricing under the current prices fails and leaves the state, or moves the center to the bound
that it reports, if that is better. -/
theorem priceTrue_cases (C : Smoothing α) (P : PathPricing) (E : Expansion) (round : Round α)
    (state : SmoothingState α) :
    (∃ fault, C.priceTrue P E round state = (.error fault, state)) ∨
    ∃ routes lower, C.priceTrue P E round state =
      (.ok ⟨[], routes, lower⟩, state.moveCenter round.duals round.objective lower) := by
  rw [priceTrue]
  dsimp only
  split
  · exact .inl ⟨_, rfl⟩
  · exact .inr ⟨_, _, rfl⟩

end Smoothing

namespace SmoothingState

variable (duals : Duals α) (objective : α) (lower : Option α)

theorem moveCenter_eq : state.moveCenter duals objective lower =
    { state with center := (state.moveCenter duals objective lower).center } := by
  cases lower with
  | none => rfl
  | some b =>
    rw [moveCenter]
    split <;> rfl

@[simp] theorem misprices_moveCenter :
    (state.moveCenter duals objective lower).misprices = state.misprices := by
  rw [moveCenter_eq]

@[simp] theorem alpha_moveCenter :
    (state.moveCenter duals objective lower).alpha = state.alpha := by
  rw [moveCenter_eq]

@[simp] theorem proveGap_moveCenter :
    (state.moveCenter duals objective lower).proveGap = state.proveGap := by
  rw [moveCenter_eq]

variable {duals objective lower}

theorem moveCenter_ne_none (h : state.center ≠ none) :
    (state.moveCenter duals objective lower).center ≠ none := by
  cases lower with
  | none => exact h
  | some b =>
    rw [moveCenter]
    split
    · exact Option.some_ne_none _
    · exact h

end SmoothingState

namespace Smoothing

theorem misprice_of_le (h : C.maxMisprices ≤ state.misprices + 1) :
    (C.misprice state).center = none ∧ (C.misprice state).misprices = 0 ∧
      (C.misprice state).alpha = C.initialAlpha := by
  rw [misprice]
  dsimp only
  rw [if_pos h]
  exact ⟨rfl, rfl, rfl⟩

theorem misprice_of_lt (h : state.misprices + 1 < C.maxMisprices) : C.misprice state =
    { state with
      misprices := state.misprices + 1
      alpha := Scalar.max (state.alpha - C.stepDown) (Scalar.ofNat 0) } := by
  rw [misprice]
  dsimp only
  rw [if_neg (Nat.not_le.2 h)]

@[simp] theorem proveGap_misprice : (C.misprice state).proveGap = state.proveGap := by
  rw [misprice]
  dsimp only
  split <;> rfl

/-- A round that gives up the center goes on under the current prices, from a state without one. -/
theorem exists_fresh_of_resets (h : C.resets P E round state = true) : ∃ fresh,
    fresh.center = none ∧ (C.price P E round state).2 = (C.priceTrue P E round fresh).2 := by
  have hstep := C.step_price P E round state
  generalize C.price P E round state = outcome at hstep
  cases hstep with
  | delegated hd =>
    rw [resets_of_delegates hd] at h
    cases h
  | closed => exact ⟨_, rfl, rfl⟩
  | uncentered hkeeps | contradicted hkeeps | improved hkeeps =>
    rw [hkeeps] at h
    cases h
  | mispriced hopen hlimit hcenter duals objective lower fallback hfallback =>
    rw [hlimit, decide_eq_true_eq] at h
    rw [hfallback]
    refine ⟨_, (misprice_of_le ?_).1, rfl⟩
    rw [SmoothingState.misprices_moveCenter]
    exact h

end Smoothing

end TourPricing
