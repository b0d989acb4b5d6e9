import TourPricing.Proofs.Pricing.SmoothingSteps

namespace TourPricing

variable {E : Expansion} {P : PathPricing} {C : Smoothing Rat} {state : SmoothingState Rat}
  {round : Round Rat} {rounds before later : List (Round Rat)} {k : Nat} {b : Rat}

/-- The settings give the center no negative weight, and move the weight up and down as they say. -/
structure Smoothing.Nonneg (C : Smoothing Rat) : Prop where
  initialAlpha : 0 ≤ C.initialAlpha
  maxAlpha : 0 ≤ C.maxAlpha
  stepUp : 0 ≤ C.stepUp
  stepDown : 0 ≤ C.stepDown

/-- A state as it may be after rounds of which `k` found the gap to the incumbent closed. -/
structure SmoothingState.Regular (C : Smoothing Rat) (k : Nat) (state : SmoothingState Rat) :
    Prop where
  misprices_lt : state.misprices < max 1 C.maxMisprices
  alpha_nonneg : 0 ≤ state.alpha
  alpha_le : state.alpha ≤ max C.initialAlpha C.maxAlpha
  fresh : state.center = none → state.misprices = 0 ∧ state.alpha = C.initialAlpha
  proveGap_eq : state.proveGap = C.initialProveGap * C.proveGapFactor ^ k

namespace SmoothingState.Regular

theorem of_fresh (hC : C.Nonneg) (hm : state.misprices = 0) (ha : state.alpha = C.initialAlpha)
    (hgap : state.proveGap = C.initialProveGap * C.proveGapFactor ^ k) : state.Regular C k where
  misprices_lt := by
    rw [hm]
    exact Nat.lt_of_lt_of_le Nat.one_pos (Nat.le_max_left _ _)
  alpha_nonneg := ha ▸ hC.initialAlpha
  alpha_le := ha ▸ le_max_left _ _
  fresh _ := ⟨hm, ha⟩
  proveGap_eq := hgap

theorem initial (hC : C.Nonneg) : C.initial.Regular C 0 :=
  of_fresh hC rfl rfl (by rw [pow_zero, mul_one]; rfl)

theorem moveCenter (h : state.Regular C k) (duals : Duals Rat) (objective : Rat)
    (lower : Option Rat) : (state.moveCenter duals objective lower).Regular C k where
  misprices_lt := by simpa using h.misprices_lt
  alpha_nonneg := by simpa using h.alpha_nonneg
  alpha_le := by simpa using h.alpha_le
  fresh hnone := by
    have hcenter : state.center = none := by
      by_contra hc
      exact moveCenter_ne_none hc hnone
    simpa using h.fresh hcenter
  proveGap_eq := by simpa using h.proveGap_eq

theorem close (h : state.Regular C k) (hC : C.Nonneg) : (C.close state).Regular C (k + 1) := by
  apply of_fresh hC rfl rfl
  rw [pow_succ, ← mul_assoc, ← h.proveGap_eq]
  rfl

theorem improve (h : state.Regular C k) (hC : C.Nonneg) (hcenter : state.center ≠ none) :
    (C.improve state).Regular C k where
  misprices_lt := Nat.lt_of_lt_of_le Nat.one_pos (Nat.le_max_left _ _)
  alpha_nonneg := by
    rw [Smoothing.improve, Scalar.min_eq]
    exact le_min (add_nonneg h.alpha_nonneg hC.stepUp) hC.maxAlpha
  alpha_le := by
    rw [Smoothing.improve, Scalar.min_eq]
    exact (min_le_right _ _).trans (le_max_right _ _)
  fresh hnone := absurd hnone hcenter
  proveGap_eq := h.proveGap_eq

theorem misprice (h : state.Regular C k) (hC : C.Nonneg) (hcenter : state.center ≠ none) :
    (C.misprice state).Regular C k := by
  by_cases hlimit : C.maxMisprices ≤ state.misprices + 1
  · obtain ⟨_, hm, ha⟩ := Smoothing.misprice_of_le hlimit
    exact of_fresh hC hm ha (by rw [Smoothing.proveGap_misprice, h.proveGap_eq])
  · rw [Smoothing.misprice_of_lt (Nat.not_le.1 hlimit)]
    have hzero : (0 : Rat) ≤ max C.initialAlpha C.maxAlpha :=
      hC.initialAlpha.trans (le_max_left _ _)
    constructor
    case misprices_lt => exact (Nat.not_le.1 hlimit).trans_le (Nat.le_max_right _ _)
    case alpha_nonneg =>
      rw [Scalar.max_eq]
      exact le_max_right _ _
    case alpha_le =>
      rw [Scalar.max_eq]
      exact max_le ((sub_le_self _ hC.stepDown).trans h.alpha_le) hzero
    case fresh => exact fun hnone => absurd hnone hcenter
    case proveGap_eq => exact h.proveGap_eq

theorem priceTrue (h : state.Regular C k) : (C.priceTrue P E round state).2.Regular C k := by
  rcases C.priceTrue_cases P E round state with ⟨_, heq⟩ | ⟨_, _, heq⟩
  · rw [heq]
    exact h
  · rw [heq]
    exact h.moveCenter _ _ _

/-- What one round preserves, whether or not it fails. -/
theorem price (h : state.Regular C k) (hC : C.Nonneg) : (C.price P E round state).2.Regular C
    (k + if C.closes round state then 1 else 0) := by
  have hstep := C.step_price P E round state
  generalize C.price P E round state = outcome at hstep
  cases hstep with
  | delegated hd =>
    rw [Smoothing.closes_of_not_resets (P := P) (E := E) (Smoothing.resets_of_delegates hd)]
    exact h
  | closed hk =>
    rw [hk]
    exact (h.close hC).priceTrue
  | uncentered hkeeps _ =>
    rw [Smoothing.closes_of_not_resets hkeeps]
    exact h.priceTrue
  | contradicted hkeeps _ =>
    rw [Smoothing.closes_of_not_resets hkeeps]
    exact h
  | improved hkeeps hcenter duals objective lower _ =>
    rw [Smoothing.closes_of_not_resets hkeeps]
    exact (h.moveCenter duals objective lower).improve hC (moveCenter_ne_none hcenter)
  | mispriced hopen _ hcenter duals objective lower fallback hfallback =>
    rw [hopen, hfallback]
    exact ((h.moveCenter duals objective lower).misprice hC (moveCenter_ne_none hcenter)).priceTrue

end SmoothingState.Regular

/-- There is a center, and its bound is at least `b`. -/
def SmoothingState.Holds (state : SmoothingState Rat) (b : Rat) : Prop :=
  ∃ c ∈ state.center, b ≤ c.bound

namespace SmoothingState.Holds

theorem moveCenter (h : state.Holds b) (duals : Duals Rat) (objective : Rat)
    (lower : Option Rat) : (state.moveCenter duals objective lower).Holds b := by
  cases lower with
  | none => exact h
  | some m =>
    rw [SmoothingState.moveCenter]
    split
    · rename_i hall
      obtain ⟨c, hc, hle⟩ := h
      have hlt : c.bound < m := by
        rw [Option.mem_def.1 hc] at hall
        simpa using hall
      exact ⟨_, rfl, hle.trans hlt.le⟩
    · exact h

theorem of_moveCenter (state : SmoothingState Rat) (duals : Duals Rat) (objective : Rat)
    {lower : Option Rat} (hb : b ∈ lower) : (state.moveCenter duals objective lower).Holds b := by
  obtain rfl := Option.mem_def.1 hb
  rw [SmoothingState.moveCenter]
  split
  · exact ⟨_, rfl, le_rfl⟩
  · rename_i hnot
    cases hc : state.center with
    | none => exact absurd (by rw [hc]; rfl) hnot
    | some c =>
      rw [hc] at hnot
      exact ⟨c, hc, not_lt.1 (by simpa using hnot)⟩

theorem misprice (h : state.Holds b) (hlimit : state.misprices + 1 < C.maxMisprices) :
    (C.misprice state).Holds b := by
  rw [Smoothing.misprice_of_lt hlimit]
  exact h

end SmoothingState.Holds

namespace Smoothing

/-- A round keeps what a state holds, and the state after it holds the bounds that it reports. -/
structure Grows (state : SmoothingState Rat) (outcome : Outcome Rat) : Prop where
  kept : ∀ b, state.Holds b → outcome.2.Holds b
  reported : ∀ result, outcome.1 = .ok result → ∀ b ∈ result.lowerBound, outcome.2.Holds b

theorem priceTrue_grows : Grows state (C.priceTrue P E round state) := by
  rcases C.priceTrue_cases P E round state with ⟨_, heq⟩ | ⟨_, _, heq⟩
  · rw [heq]
    exact ⟨fun _ h => h, fun _ h => nomatch h⟩
  · rw [heq]
    refine ⟨fun _ h => h.moveCenter _ _ _, fun result hr b hb => ?_⟩
    obtain rfl := Except.ok.inj hr
    exact .of_moveCenter _ _ _ hb

theorem price_grows (he : C.enabled = true) (hkeeps : C.resets P E round state = false) :
    Grows state (C.price P E round state) := by
  have hstep := C.step_price P E round state
  generalize C.price P E round state = outcome at hstep
  cases hstep with
  | delegated hd =>
    have hk : round.kind = .farkas := hd.resolve_right (by rw [he]; decide)
    refine ⟨fun _ h => h, fun result hr b hb => ?_⟩
    obtain rfl := Except.ok.inj hr
    rw [PathPricing.price, hk] at hb
    cases hb
  | closed hk =>
    rw [resets_of_closes hk] at hkeeps
    cases hkeeps
  | uncentered => exact priceTrue_grows
  | contradicted =>
    refine ⟨fun _ h => h, ?_⟩
    intro _ h
    cases h
  | improved _ _ duals objective lower routes =>
    refine ⟨fun _ h => h.moveCenter duals objective lower, fun result hr b hb => ?_⟩
    obtain rfl := Except.ok.inj hr
    exact SmoothingState.Holds.of_moveCenter state duals objective hb
  | mispriced _ hlimit _ duals objective lower fallback hfallback =>
    have hlt : (state.moveCenter duals objective lower).misprices + 1 < C.maxMisprices := by
      rw [hlimit, decide_eq_false_iff_not] at hkeeps
      rw [SmoothingState.misprices_moveCenter]
      exact Nat.not_le.1 hkeeps
    have hgrows : Grows (C.misprice (state.moveCenter duals objective lower)) fallback :=
      hfallback ▸ priceTrue_grows
    refine ⟨fun b h => hgrows.kept b ((h.moveCenter _ _ _).misprice hlt), fun result hr => ?_⟩
    cases hr' : fallback.1 with
    | error e =>
      rw [hr'] at hr
      cases hr
    | ok r =>
      rw [hr'] at hr
      obtain rfl := Except.ok.inj hr
      exact forall_mem_bestOf (hgrows.reported r hr') fun b hb =>
        hgrows.kept b ((SmoothingState.Holds.of_moveCenter _ _ _ hb).misprice hlt)

def after (C : Smoothing Rat) (P : PathPricing) (E : Expansion) (state : SmoothingState Rat)
    (rounds : List (Round Rat)) : SmoothingState Rat :=
  rounds.foldl (fun state round => (C.price P E round state).2) state

/-- Rounds that are priced one after another, each with the state in which it is priced. -/
def calls (C : Smoothing Rat) (P : PathPricing) (E : Expansion) :
    SmoothingState Rat → List (Round Rat) → List (SmoothingState Rat × Round Rat)
  | _, [] => []
  | state, round :: rest => (state, round) :: C.calls P E (C.price P E round state).2 rest

theorem after_append : C.after P E state (before ++ later) =
    C.after P E (C.after P E state before) later :=
  List.foldl_append

theorem after_of_disabled (he : C.enabled = false) : C.after P E state rounds = state := by
  induction rounds with
  | nil => rfl
  | cons round rest ih =>
    have hsame : (C.price P E round state).2 = state := by rw [price_of_delegates (.inr he)]
    exact (congrArg (C.after P E · rest) hsame).trans ih

/-- What a run preserves, with the number of rounds that found the gap closed. -/
theorem regular_after (hC : C.Nonneg) (h : state.Regular C k) (P : PathPricing) (E : Expansion)
    (rounds : List (Round Rat)) : (C.after P E state rounds).Regular C
      (k + (C.calls P E state rounds).countP fun call => C.closes call.2 call.1) := by
  induction rounds generalizing state k with
  | nil => exact h
  | cons round rest ih =>
    rw [calls, List.countP_cons, Nat.add_comm (List.countP _ _), ← Nat.add_assoc]
    exact ih (h.price hC)

/-- Rounds of which none gives up the center keep what a state holds, and in the end the center
holds the bounds of them all. -/
theorem after_grows (he : C.enabled = true)
    (hkeeps : ∀ call ∈ C.calls P E state rounds, C.resets P E call.2 call.1 = false) :
    (∀ b, state.Holds b → (C.after P E state rounds).Holds b) ∧
      ∀ call ∈ C.calls P E state rounds, ∀ result, (C.price P E call.2 call.1).1 = .ok result →
        ∀ b ∈ result.lowerBound, (C.after P E state rounds).Holds b := by
  induction rounds generalizing state with
  | nil => exact ⟨fun _ h => h, fun _ hcall => nomatch hcall⟩
  | cons round rest ih =>
    obtain ⟨hround, hrest⟩ := List.forall_mem_cons.1 hkeeps
    have hgrows := price_grows he hround
    obtain ⟨hkept, hreported⟩ := ih hrest
    refine ⟨fun b h => hkept b (hgrows.kept b h), List.forall_mem_cons.2 ⟨?_, hreported⟩⟩
    intro result hr b hb
    exact hkept b (hgrows.reported result hr b hb)

end Smoothing

def Pricer.after (E : Expansion) (p : Pricer Rat) (rounds : List (Round Rat)) : Pricer Rat :=
  rounds.foldl (fun p round => (p.price E round).2) p

theorem Pricer.after_stabilized : (Pricer.stabilized P C state).after E rounds =
    .stabilized P C (C.after P E state rounds) := by
  induction rounds generalizing state with
  | nil => rfl
  | cons round rest ih => exact ih

/-- Whatever rounds a stabilized pricer is given, its misprices stay below their limit, the weight
of the center stays in its range, without a center both are as in the beginning, and the prove gap
counts how often it was reached. As long as no round gives up the center, the bound there does not
decrease, and it is at least each bound that is reported. After giving it up, a round goes on under
the current prices without one. -/
theorem stabilized_states_regular (E : Expansion) (P : PathPricing) (C : Smoothing Rat)
    (hinitial : 0 ≤ C.initialAlpha) (hmax : 0 ≤ C.maxAlpha) (hup : 0 ≤ C.stepUp)
    (hdown : 0 ≤ C.stepDown) (rounds : List (Round Rat)) :
    ∃ state, (Pricer.stabilized P C C.initial).after E rounds = .stabilized P C state ∧
      state.misprices < max 1 C.maxMisprices ∧
      (0 ≤ state.alpha ∧ state.alpha ≤ max C.initialAlpha C.maxAlpha) ∧
      (state.center = none → state.misprices = 0 ∧ state.alpha = C.initialAlpha) ∧
      state.proveGap = C.initialProveGap * C.proveGapFactor ^
        (C.calls P E C.initial rounds).countP (fun call => C.closes call.2 call.1) ∧
      (C.enabled = false → state = C.initial) ∧
      (∀ call ∈ C.calls P E C.initial rounds, C.resets P E call.2 call.1 = true → ∃ fresh,
        fresh.center = none ∧
          (C.price P E call.2 call.1).2 = (C.priceTrue P E call.2 fresh).2) ∧
      ∀ before later, rounds = before ++ later →
        (∀ call ∈ C.calls P E (C.after P E C.initial before) later,
          C.resets P E call.2 call.1 = false) →
        (∀ c ∈ (C.after P E C.initial before).center, ∃ d ∈ state.center, c.bound ≤ d.bound) ∧
        (C.enabled = true → ∀ call ∈ C.calls P E (C.after P E C.initial before) later,
          ∀ result b, (C.price P E call.2 call.1).1 = .ok result → result.lowerBound = some b →
            ∃ d ∈ state.center, b ≤ d.bound) := by
  have hC : C.Nonneg := ⟨hinitial, hmax, hup, hdown⟩
  have hregular := Smoothing.regular_after hC (.initial hC) P E rounds
  rw [Nat.zero_add] at hregular
  refine ⟨C.after P E C.initial rounds, Pricer.after_stabilized, hregular.misprices_lt,
    ⟨hregular.alpha_nonneg, hregular.alpha_le⟩, hregular.fresh, hregular.proveGap_eq,
    Smoothing.after_of_disabled, fun _ _ => Smoothing.exists_fresh_of_resets, ?_⟩
  rintro before later rfl hkeeps
  rw [Smoothing.after_append]
  cases he : C.enabled with
  | false =>
    rw [Smoothing.after_of_disabled he]
    exact ⟨fun c hc => absurd hc (Option.not_mem_none c), nofun⟩
  | true =>
    obtain ⟨hkept, hreported⟩ := Smoothing.after_grows he hkeeps
    refine ⟨fun c hc => hkept c.bound ⟨c, hc, le_rfl⟩, fun _ call hcall result b hr hb => ?_⟩
    exact hreported call hcall result hr b hb

/-- Two rounds on the triangle. The first one leaves a center, and the second one keeps it. -/
theorem stabilized_states_regular_triangle :
    ∃ state, (Pricer.stabilized {} .standard Smoothing.standard.initial).after
        Network.triangle.expand [Round.idle, Round.rewarding] = .stabilized {} .standard state ∧
      state.misprices < 5 ∧ 0 ≤ state.alpha ∧ ∃ d ∈ state.center, 3 ≤ d.bound := by
  let C : Smoothing Rat := .standard
  let E := Network.triangle.expand
  obtain ⟨state, hstate, hmisprices, ⟨halpha, _⟩, _, _, _, _, hgrows⟩ :=
    stabilized_states_regular E {} C (by decide +kernel) (by decide +kernel) (by decide +kernel)
      (by decide +kernel) [Round.idle, Round.rewarding]
  have hfirst : C.resets {} E Round.idle C.initial = false := by decide +kernel
  have hmisprice : (C.price {} E Round.idle C.initial).2.misprices = 0 := by decide +kernel
  have hsecond : C.resets {} E Round.rewarding (C.price {} E Round.idle C.initial).2 = false := by
    have hopen : (C.price {} E Round.idle C.initial).2.gapClosed Round.rewarding = false := rfl
    have hlimit : decide (C.maxMisprices ≤ 0 + 1) = false := by decide +kernel
    rw [Smoothing.resets_eq rfl rfl, hopen, Bool.false_or, Option.any_eq_false]
    intro center _
    rw [Smoothing.exhausts, hmisprice, hlimit, Bool.and_false]
  have hkeeps : ∀ call ∈ C.calls {} E C.initial [Round.idle, Round.rewarding],
      C.resets {} E call.2 call.1 = false := by
    simp only [Smoothing.calls, List.forall_mem_cons]
    exact ⟨hfirst, hsecond, List.forall_mem_nil _⟩
  have hbound : Round.bound Round.idle {} E = 3 := by decide +kernel
  obtain ⟨_, hreported⟩ := hgrows [] _ rfl hkeeps
  refine ⟨state, hstate, hmisprices, halpha, ?_⟩
  have hagrees : C.Agrees {} E Round.idle (C.price {} E Round.idle C.initial).1 :=
    Smoothing.price_agrees (by decide +kernel) rfl rfl (.inl rfl)
  rcases hagrees with ⟨_, hnone, _⟩ | ⟨_, hok⟩
  · cases hnone
  · apply hreported rfl _ List.mem_cons_self _ 3 hok
    rw [PathPricing.price_of_reduced rfl, hbound]

end TourPricing
