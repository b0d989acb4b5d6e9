import Mathlib.Algebra.Order.Ring.Rat
import TourPricing.Scalar

namespace TourPricing.Scalar

theorem min_eq (a b : Rat) : Scalar.min a b = Min.min a b := by
  rw [Scalar.min]
  split
  · rename_i h
    exact (min_eq_left h).symm
  · rename_i h
    rw [if_pos le_rfl, min_eq_right (le_of_not_ge h)]

theorem max_eq (a b : Rat) : Scalar.max a b = Max.max a b := by
  rw [Scalar.max]
  split
  · rename_i h
    exact (max_eq_left h).symm
  · rename_i h
    rw [if_pos le_rfl, max_eq_right (le_of_not_ge h)]

/-- Some number was seen, and the least of those seen is at most `c`. -/
def AtMost (least : Option Rat) (c : Rat) : Prop :=
  ∃ m, least = some m ∧ m ≤ c

theorem eq_of_atMost {a b : Option Rat} (hab : ∀ m ∈ a, AtMost b m) (hba : ∀ m ∈ b, AtMost a m) :
    a = b := by
  cases a with
  | none =>
    cases b with
    | none => rfl
    | some k =>
      obtain ⟨m, hm, _⟩ := hba k rfl
      cases hm
  | some m =>
    obtain ⟨k, rfl, hkm⟩ := hab m rfl
    obtain ⟨m', hm, hmk⟩ := hba k rfl
    obtain rfl := Option.some.inj hm
    rw [le_antisymm hmk hkm]

end TourPricing.Scalar
