import Mathlib.Algebra.Order.Group.Unbundled.Abs
import TourPricing.Proofs.Pricing.Narrowing
import TourPricing.Proofs.Pricing.SmoothedRoutes

namespace TourPricing

namespace Scalar

theorem abs_eq (a : Rat) : Scalar.abs a = |a| := by
  rw [Scalar.abs]
  split
  · rename_i h
    exact (abs_of_neg h).symm
  · rename_i h
    exact (abs_of_nonneg (not_lt.1 h)).symm

theorem magnitude_eq (a : Rat) : Scalar.magnitude a = Max.max |a| 1 := by
  rw [Scalar.magnitude, Scalar.max_eq, Scalar.abs_eq]
  rfl

end Scalar

section

variable {bound objective tolerance a b value : Rat} {incumbent : Option Rat}

theorem clearlyAbove_iff :
    clearlyAbove tolerance a b = true ↔ b + tolerance * max |b| 1 < a := by
  rw [clearlyAbove, decide_eq_true_eq, Scalar.magnitude_eq]

theorem contradicted?_eq_some_iff : contradicted? bound incumbent tolerance = some value ↔
    incumbent = some value ∧ value + tolerance * max |value| 1 < bound := by
  rw [contradicted?, Option.filter_eq_some_iff, clearlyAbove_iff]

theorem le_of_contradicted?_eq_none (h : contradicted? bound incumbent tolerance = none) :
    ∀ value, incumbent = some value → bound ≤ value + tolerance * max |value| 1 := by
  intro value hv
  by_contra hlt
  rw [contradicted?_eq_some_iff.2 ⟨hv, not_le.1 hlt⟩] at h
  cases h

theorem le_of_mem_reportable? (h : b ∈ reportable? bound objective tolerance) :
    b ≤ objective + tolerance * max |objective| 1 := by
  obtain rfl := mem_reportable? h
  rw [reportable?] at h
  split at h
  · rename_i hok
    have hnot : ¬ clearlyAbove tolerance b objective = true := by
      simpa using (Bool.and_eq_true_iff.1 hok).2
    exact not_lt.1 fun hlt => hnot (clearlyAbove_iff.2 hlt)
  · cases h

theorem reportable?_eq_some (htol : 0 ≤ tolerance) (h : bound ≤ objective) :
    reportable? bound objective tolerance = some bound := by
  have hslack : 0 ≤ tolerance * max |objective| 1 :=
    mul_nonneg htol (zero_le_one.trans (le_max_right _ _))
  have hnot : clearlyAbove tolerance bound objective = false := by
    rw [Bool.eq_false_iff, Ne, clearlyAbove_iff, not_lt]
    exact h.trans (le_add_of_nonneg_right hslack)
  have hfinite : Scalar.isFinite bound = true := rfl
  rw [reportable?, hnot, hfinite]
  rfl

theorem lagrangianBound_le_objective (objective : Rat) (least : Option Rat) (n : Nat) :
    lagrangianBound objective least n ≤ objective := by
  have hnone : lagrangianBound objective none n = objective :=
    (congrArg (objective + ·) (zero_mul _)).trans (add_zero objective)
  calc lagrangianBound objective least n
    _ ≤ lagrangianBound objective none n :=
      lagrangianBound_mono (fun _ hm => absurd hm (Option.not_mem_none _)) _ _
    _ = objective := hnone

end

section

variable {α : Type} [Scalar α] {E : Expansion} {P : PathPricing} {C : Smoothing α}
  {state : SmoothingState α} {round : Round α}

def Round.bound (round : Round α) (P : PathPricing) (E : Expansion) : α :=
  PathPricing.bound (round.search P E).run E (CostKind.reduced.cost E.network round.duals)
    round.forbidden round.window round.objective

theorem PathPricing.price_of_reduced (hk : round.kind = .reduced) : P.price E round =
    ⟨[], (round.search P E).run.paths.map (·.2), some (round.bound P E)⟩ := by
  rw [price, hk]
  rfl

theorem SmoothingState.gapClosed_iff {state : SmoothingState Rat} {round : Round Rat} :
    state.gapClosed round = true ↔ ∃ value best, round.incumbent = some value ∧
      round.bestBound = some best ∧ (value - best) / max |value| 1 < state.proveGap := by
  cases hv : round.incumbent with
  | none => simp [gapClosed, hv]
  | some value =>
    cases hb : round.bestBound with
    | none => simp [gapClosed, hv, hb]
    | some best => simp [gapClosed, hv, hb, Scalar.magnitude_eq]

namespace Smoothing

theorem price_of_delegates (h : round.kind = .farkas ∨ C.enabled = false) :
    C.price P E round state = (.ok (P.price E round), state) := by
  have hcond : (round.kind == .farkas || !C.enabled) = true := by
    rcases h with hk | he
    · rw [hk]
      rfl
    · rw [he, Bool.not_false, Bool.or_true]
  rw [price, if_pos hcond]

variable (he : C.enabled = true) (hk : round.kind = .reduced)

include he hk

theorem price_of_gapClosed (hg : state.gapClosed round = true) : C.price P E round state =
    C.priceTrue P E round
      (C.resetCenter { state with proveGap := state.proveGap * C.proveGapFactor }) := by
  rw [price, hk, he, if_neg (by decide), if_pos hg]

theorem price_of_no_center (hg : state.gapClosed round = false) (hc : state.center = none) :
    C.price P E round state = C.priceTrue P E round state := by
  rw [price, hk, he, if_neg (by decide), hg, if_neg Bool.false_ne_true, hc]

theorem price_of_center (hg : state.gapClosed round = false) {center : StabilityCenter α}
    (hc : state.center = some center) :
    C.price P E round state = C.priceCentered P E round state center := by
  rw [price, hk, he, if_neg (by decide), hg, if_neg Bool.false_ne_true, hc]

end Smoothing

end

namespace Smoothing

variable {E : Expansion} {P : PathPricing} {C : Smoothing Rat} {state : SmoothingState Rat}
  {round : Round Rat} {result : PricingResult Rat} {b : Rat}

/-- A round on reduced costs comes back as from path pricing, or its bound contradicts the
incumbent. -/
def Agrees (C : Smoothing Rat) (P : PathPricing) (E : Expansion) (round : Round Rat)
    (outcome : Except (Contradiction Rat) (PricingResult Rat)) : Prop :=
  (∃ value, round.incumbent = some value ∧
      value + C.tolerance * max |value| 1 < round.bound P E ∧
      outcome = .error ⟨round.bound P E, value⟩) ∨
    (∀ value, round.incumbent = some value →
      round.bound P E ≤ value + C.tolerance * max |value| 1) ∧
      outcome = .ok (P.price E round)

theorem priceTrue_agrees (htol : 0 ≤ C.tolerance) (hk : round.kind = .reduced) :
    C.Agrees P E round (C.priceTrue P E round state).1 := by
  have hle : round.bound P E ≤ round.objective := lagrangianBound_le_objective _ _ _
  rw [priceTrue]
  dsimp only
  split
  · rename_i value hv
    obtain ⟨hincumbent, hlt⟩ := contradicted?_eq_some_iff.1 hv
    exact .inl ⟨value, hincumbent, hlt, rfl⟩
  · rename_i hnone
    refine .inr ⟨le_of_contradicted?_eq_none hnone, ?_⟩
    rw [PathPricing.price_of_reduced hk, ← reportable?_eq_some htol hle]
    rfl

theorem price_agrees (htol : 0 ≤ C.tolerance) (he : C.enabled = true)
    (hk : round.kind = .reduced) (h : state.center = none ∨ state.gapClosed round = true) :
    C.Agrees P E round (C.price P E round state).1 := by
  cases hg : state.gapClosed round with
  | true =>
    rw [price_of_gapClosed he hk hg]
    exact priceTrue_agrees htol hk
  | false =>
    have hc : state.center = none := h.resolve_right (by rw [hg]; exact Bool.false_ne_true)
    rw [price_of_no_center he hk hg hc]
    exact priceTrue_agrees htol hk

/-- The bounds of a result exceed the objective of its round by no more than the tolerance. -/
def Capped (C : Smoothing Rat) (round : Round Rat) (lower : Option Rat) : Prop :=
  ∀ b ∈ lower, b ≤ round.objective + C.tolerance * max |round.objective| 1

theorem forall_mem_bestOf {p : Rat → Prop} {lower lower' : Option Rat} (h : ∀ b ∈ lower, p b)
    (h' : ∀ b ∈ lower', p b) : ∀ b ∈ bestOf lower lower', p b := by
  cases lower with
  | none => exact h'
  | some x =>
    cases lower' with
    | none => exact h
    | some y =>
      intro b hb
      obtain rfl := Option.some.inj hb
      rw [Scalar.max_eq]
      rcases max_choice x y with hx | hy
      · rw [hx]
        exact h x rfl
      · rw [hy]
        exact h' y rfl

theorem capped_reportable? (bound : Rat) :
    C.Capped round (reportable? bound round.objective C.tolerance) :=
  fun _ hb => le_of_mem_reportable? hb

theorem capped_priceTrue (h : (C.priceTrue P E round state).1 = .ok result) :
    C.Capped round result.lowerBound := by
  rw [priceTrue] at h
  dsimp only at h
  split at h
  · cases h
  · obtain rfl := Except.ok.inj h
    exact capped_reportable? _

theorem capped_priceCentered {center : StabilityCenter Rat}
    (h : (C.priceCentered P E round state center).1 = .ok result) :
    C.Capped round result.lowerBound := by
  rw [priceCentered] at h
  dsimp only at h
  split at h
  · cases h
  · split at h
    · cases hfall : (C.priceTrue P E round (C.misprice (state.moveCenter _ _ _))).1 with
      | error e =>
        rw [hfall] at h
        cases h
      | ok fallback =>
        rw [hfall] at h
        obtain rfl := Except.ok.inj h
        exact forall_mem_bestOf (capped_priceTrue hfall) (capped_reportable? _)
    · obtain rfl := Except.ok.inj h
      exact capped_reportable? _

theorem capped_price (he : C.enabled = true) (hk : round.kind = .reduced)
    (h : (C.price P E round state).1 = .ok result) : C.Capped round result.lowerBound := by
  cases hg : state.gapClosed round with
  | true =>
    rw [price_of_gapClosed he hk hg] at h
    exact capped_priceTrue h
  | false =>
    cases hc : state.center with
    | none =>
      rw [price_of_no_center he hk hg hc] at h
      exact capped_priceTrue h
    | some center =>
      rw [price_of_center he hk hg hc] at h
      exact capped_priceCentered h

end Smoothing

/-- In any state a stabilized pricer passes on rounds for feasibility, and all rounds where
smoothing is disabled, to path pricing, and stays as it is. Without a center, or once the gap to the
incumbent is closed, an enabled one comes back with what path pricing finds, unless the bound of
path pricing is clearly above the incumbent. No bound that it reports is clearly above the
objective. -/
theorem stabilized_price_transparent (E : Expansion) (P : PathPricing) (C : Smoothing Rat)
    (htol : 0 ≤ C.tolerance) (state : SmoothingState Rat) (round : Round Rat) :
    (round.kind = .farkas ∨ C.enabled = false → (Pricer.stabilized P C state).price E round =
      (((Pricer.path P).price E round).1, .stabilized P C state)) ∧
    (round.kind = .reduced → C.enabled = true →
      (state.center = none ∨ (∃ value best, round.incumbent = some value ∧
        round.bestBound = some best ∧ (value - best) / max |value| 1 < state.proveGap) →
        ∃ plain b, ((Pricer.path P).price E round).1 = .ok plain ∧ plain.lowerBound = some b ∧
          ((∃ value, round.incumbent = some value ∧ value + C.tolerance * max |value| 1 < b ∧
              ((Pricer.stabilized P C state).price E round).1 = .error ⟨b, value⟩) ∨
            (∀ value, round.incumbent = some value → b ≤ value + C.tolerance * max |value| 1) ∧
              ((Pricer.stabilized P C state).price E round).1 = .ok plain)) ∧
      ∀ result b, ((Pricer.stabilized P C state).price E round).1 = .ok result →
        result.lowerBound = some b →
          b ≤ round.objective + C.tolerance * max |round.objective| 1) := by
  constructor
  · intro h
    simp only [Pricer.price, Smoothing.price_of_delegates h]
  · intro hk he
    constructor
    · intro h
      rw [← SmoothingState.gapClosed_iff] at h
      refine ⟨P.price E round, round.bound P E, rfl, ?_, Smoothing.price_agrees htol he hk h⟩
      rw [PathPricing.price_of_reduced hk]
    · intro result b hresult hb
      exact Smoothing.capped_price he hk hresult b hb

/-- A round whose incumbent is below what its bound allows, and one without an incumbent. -/
theorem stabilized_price_transparent_idle :
    let p := Pricer.stabilized {} .standard Smoothing.standard.initial
    let E := Network.triangle.expand
    (p.price E { Round.idle with kind := .farkas }).2 = p ∧
      (p.price E Round.idle).1 = ((Pricer.path {}).price E Round.idle).1 ∧
      (p.price E { Round.idle with incumbent := some 1 }).1 = .error ⟨3, 1⟩ ∧
      ∀ result b, (p.price E Round.idle).1 = .ok result → result.lowerBound = some b →
        b ≤ 3 + 1 / 10 ^ 6 * 3 := by
  intro p E
  have htol : (0 : Rat) ≤ (Smoothing.standard : Smoothing Rat).tolerance := by decide +kernel
  have hbound : Round.bound { Round.idle with incumbent := some 1 } {} E = 3 := by decide +kernel
  have hsum : (3 : Rat) + (Smoothing.standard : Smoothing Rat).tolerance * max |3| 1 =
      3 + 1 / 10 ^ 6 * 3 := by decide +kernel
  have hfarkas := (stabilized_price_transparent E {} .standard htol Smoothing.standard.initial
    { Round.idle with kind := .farkas }).1 (.inl rfl)
  obtain ⟨hsame, hcap⟩ := (stabilized_price_transparent E {} .standard htol
    Smoothing.standard.initial Round.idle).2 rfl rfl
  obtain ⟨hfault, _⟩ := (stabilized_price_transparent E {} .standard htol
    Smoothing.standard.initial { Round.idle with incumbent := some 1 }).2 rfl rfl
  refine ⟨congrArg Prod.snd hfarkas, ?_, ?_, ?_⟩
  · obtain ⟨plain, b, hplain, _, ⟨_, hnone, _⟩ | ⟨_, hok⟩⟩ := hsame (.inl rfl)
    · cases hnone
    · exact hok.trans hplain.symm
  · obtain ⟨plain, b, hplain, hb, hcases⟩ := hfault (.inl rfl)
    obtain rfl := Except.ok.inj hplain
    rw [PathPricing.price_of_reduced rfl, hbound] at hb
    obtain rfl := Option.some.inj hb
    rcases hcases with ⟨value, hv, _, herror⟩ | ⟨hle, _⟩
    · obtain rfl := Option.some.inj hv
      exact herror
    · exact absurd (hle 1 rfl) (by decide +kernel)
  · intro result b hresult hb
    exact (hcap result b hresult hb).trans_eq hsum

end TourPricing
