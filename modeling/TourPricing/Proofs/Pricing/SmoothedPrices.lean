import Mathlib.Data.List.GetD
import Mathlib.Data.Set.Basic
import Mathlib.Tactic.Linarith
import Mathlib.Tactic.Ring
import TourPricing.Proofs.Pricing.TourBound

namespace TourPricing

variable {E : Expansion} {T : Route} {F : Set Route}

def Duals.value (d : Duals Rat) (T : Route) : Rat :=
  (T.legs.map fun leg => d.get leg.edge).sum

theorem Route.reducedCost_eq (T : Route) (d : Duals Rat) :
    T.reducedCost d = (T.travelTime : Rat) - d.value T := by
  rw [Route.reducedCost, Duals.value, Route.travelTime]
  induction T.legs with
  | nil => simp
  | cons leg rest ih =>
    rw [List.map_cons, List.sum_cons, ih, List.map_cons, List.map_cons, List.sum_cons, total_cons,
      Nat.cast_add]
    ring

namespace Duals

theorem get_interpolate (a : Rat) (d other : Duals Rat) (e : Nat) :
    (d.interpolate a other).get e = a * d.get e + (1 - a) * other.get e := by
  by_cases he : e < max d.values.length other.values.length
  · rw [Duals.get, interpolate, List.getD_eq_getElem _ _ (by simpa using he), List.getElem_map,
      List.getElem_range]
    rfl
  · have hd : d.get e = 0 := List.getD_eq_default _ _ (by omega)
    have ho : other.get e = 0 := List.getD_eq_default _ _ (by omega)
    have hi : (d.interpolate a other).get e = 0 :=
      List.getD_eq_default _ _ (by simpa [interpolate] using he)
    rw [hd, ho, hi, mul_zero, mul_zero, add_zero]

theorem value_interpolate (a : Rat) (d other : Duals Rat) (T : Route) :
    (d.interpolate a other).value T = a * d.value T + (1 - a) * other.value T := by
  rw [value, value, value]
  induction T.legs with
  | nil =>
    rw [List.map_nil, List.map_nil, List.map_nil, List.sum_nil, mul_zero, mul_zero, add_zero]
  | cons leg rest ih =>
    rw [List.map_cons, List.sum_cons, ih, get_interpolate, List.map_cons, List.sum_cons,
      List.map_cons, List.sum_cons]
    ring

/-- Dual prices make every route of a set worth at least an objective. -/
def Supports (d : Duals Rat) (objective : Rat) (F : Set Route) : Prop :=
  ∀ T ∈ F, objective ≤ d.value T

theorem Supports.interpolate {d other : Duals Rat} {y z a : Rat} (hd : d.Supports y F)
    (ho : other.Supports z F) (h0 : 0 ≤ a) (h1 : a ≤ 1) :
    (d.interpolate a other).Supports (a * y + (1 - a) * z) F := by
  intro T hT
  rw [value_interpolate]
  have hy : a * y ≤ a * d.value T := mul_le_mul_of_nonneg_left (hd T hT) h0
  have hz : (1 - a) * z ≤ (1 - a) * other.value T :=
    mul_le_mul_of_nonneg_left (ho T hT) (sub_nonneg.2 h1)
  exact add_le_add hy hz

end Duals

def BoundsBelow (lower : Option Rat) (F : Set Route) : Prop :=
  ∀ b ∈ lower, ∀ T ∈ F, b ≤ T.travelTime

/-- Some route of a set takes no more time than the value of the incumbent, if there is one. -/
def Round.IncumbentIn (round : Round Rat) (F : Set Route) : Prop :=
  ∀ value ∈ round.incumbent, ∃ T ∈ F, (T.travelTime : Rat) ≤ value

/-- A round permits the tours of a set, and its prices make them worth its objective. -/
structure Round.Allows (round : Round Rat) (E : Expansion) (F : Set Route) : Prop where
  tour : ∀ T ∈ F, E.IsTour T
  permitted : ∀ T ∈ F, T.Permitted E.network.source round.forbidden round.window
  supports : round.duals.Supports round.objective F

theorem contradicted?_eq_none {bound tolerance : Rat} {incumbent : Option Rat}
    (ht : 0 ≤ tolerance) (h : ∀ value ∈ incumbent, bound ≤ value) :
    contradicted? bound incumbent tolerance = none := by
  apply Option.filter_eq_none_iff.2
  intro value hv habove
  have hone : 1 ≤ Scalar.magnitude value := by
    rw [Scalar.magnitude, Scalar.max_eq]
    exact le_max_right _ _
  have hscale : 0 ≤ tolerance * Scalar.magnitude value := mul_nonneg ht (zero_le_one.trans hone)
  have hlt : value + tolerance * Scalar.magnitude value < bound := of_decide_eq_true habove
  exact absurd (h value hv) (not_le.2 ((le_add_of_nonneg_right hscale).trans_lt hlt))

theorem mem_reportable? {bound objective tolerance b : Rat}
    (h : b ∈ reportable? bound objective tolerance) : b = bound := by
  rw [reportable?] at h
  split at h
  · exact (Option.some.inj h).symm
  · cases h

/-- The bound at a point that supports some permitted tours is below the time that each takes. -/
theorem Round.Allows.bound_le {round : Round Rat} (h : round.Allows E F)
    (hN : E.network.WellFormed) (P : PathPricing) {d : Duals Rat} {objective : Rat}
    (hd : d.Supports objective F) (hT : T ∈ F) :
    PathPricing.bound (P.search E (CostKind.reduced.cost E.network d) round.forbidden
        round.window).run E (CostKind.reduced.cost E.network d) round.forbidden round.window
        objective ≤ T.travelTime := by
  apply ((h.tour T hT).pathBound_le hN (h.permitted T hT) P d objective).trans
  rw [Route.reducedCost_eq]
  linarith only [hd T hT]

end TourPricing
