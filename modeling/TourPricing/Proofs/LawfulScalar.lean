import Mathlib.Algebra.Order.Ring.Rat
import Mathlib.Data.Nat.Cast.Order.Ring
import Mathlib.Order.Bounds.Defs
import TourPricing.Scalar

namespace TourPricing

/-- Numbers that are totally ordered, as far as they are numbers, and whose arithmetic keeps to the
order where finite numbers are added or multiplied. Doubles are such numbers: rounding is monotone,
and a finite summand never makes a sum undefined. -/
class LawfulScalar (α : Type) [Scalar α] : Prop where
  le_refl_of_isFinite : ∀ {a : α}, Scalar.isFinite a = true → a ≤ a
  le_refl_of_le : ∀ {a b : α}, a ≤ b → a ≤ a ∧ b ≤ b
  le_trans : ∀ {a b c : α}, a ≤ b → b ≤ c → a ≤ c
  lt_of_lt_of_le : ∀ {a b c : α}, a < b → b ≤ c → a < c
  le_total : ∀ {a b : α}, a ≤ a → b ≤ b → a ≤ b ∨ b ≤ a
  isFinite_zero : Scalar.isFinite (Scalar.ofNat 0 : α) = true
  add_le_add_right : ∀ {a b c : α}, Scalar.isFinite c = true → a ≤ b → a + c ≤ b + c
  add_le_add_left : ∀ {a b c : α}, Scalar.isFinite c = true → a ≤ b → c + a ≤ c + b
  mul_le_mul_right : ∀ {a b : α} {n : Nat}, Scalar.isFinite (Scalar.ofNat n : α) = true →
    Scalar.isFinite a = true → Scalar.isFinite b = true → a ≤ b →
    a * Scalar.ofNat n ≤ b * Scalar.ofNat n

instance : LawfulScalar Rat where
  le_refl_of_isFinite _ := le_rfl
  le_refl_of_le _ := ⟨le_rfl, le_rfl⟩
  le_trans hab hbc := Rat.le_trans hab hbc
  lt_of_lt_of_le hab hbc := hab.trans_le hbc
  le_total _ _ := Rat.le_total
  isFinite_zero := rfl
  add_le_add_right _ h := Rat.add_le_add_right.2 h
  add_le_add_left _ h := Rat.add_le_add_left.2 h
  mul_le_mul_right {_ _ n} _ _ _ h := mul_le_mul_of_nonneg_right h (Nat.cast_nonneg n)

namespace Scalar

variable {α : Type} [Scalar α] {seen : Option α} {costs : List α} {a b c d m : α}

theorem min_eq_or_eq (a b : α) : Scalar.min a b = a ∨ Scalar.min a b = b := by
  rw [Scalar.min]
  split
  · exact .inl rfl
  · split
    · exact .inr rfl
    · exact .inl rfl

protected theorem min_le_right (hb : b ≤ b) : Scalar.min a b ≤ b := by
  rw [Scalar.min, if_pos hb]
  split
  · assumption
  · exact hb

theorem eq_or_eq_of_least (h : Scalar.least seen c = some m) : seen = some m ∨ c = m := by
  cases seen with
  | none =>
    simp only [Scalar.least] at h
    split at h
    · exact .inr (Option.some.inj h)
    · cases h
  | some k =>
    rcases min_eq_or_eq k c with hk | hc
    · exact .inl (by rw [← h, Scalar.least, hk])
    · exact .inr (Option.some.inj (by rw [← h, Scalar.least, hc]))

theorem mem_of_foldl_least (h : costs.foldl Scalar.least seen = some m) :
    seen = some m ∨ m ∈ costs := by
  induction costs generalizing seen with
  | nil => exact .inl h
  | cons c rest ih =>
    rcases ih h with h | h
    · rcases Scalar.eq_or_eq_of_least h with h | rfl
      · exact .inl h
      · exact .inr List.mem_cons_self
    · exact .inr (List.mem_cons_of_mem _ h)

theorem exists_least_le (seen : Option α) (hc : c ≤ c) : ∃ m ∈ Scalar.least seen c, m ≤ c := by
  cases seen with
  | none => exact ⟨c, if_pos hc, hc⟩
  | some m => exact ⟨_, rfl, Scalar.min_le_right hc⟩

/-- The least of some costs, with `none` for the least of no costs. -/
def IsLeastOf (costs : Set α) : Option α → Prop
  | none => costs = ∅
  | some m => IsLeast costs m

section

variable {costs : Set α} {least : Option α}

theorem isLeastOf_of_mem_of_le (hmem : ∀ m ∈ least, m ∈ costs)
    (hle : ∀ c ∈ costs, ∃ m ∈ least, m ≤ c) : IsLeastOf costs least := by
  cases least with
  | none =>
    apply Set.eq_empty_iff_forall_notMem.2
    intro c hc
    obtain ⟨m, hm, _⟩ := hle c hc
    cases hm
  | some m =>
    refine ⟨hmem m rfl, ?_⟩
    intro c hc
    obtain ⟨k, hk, hkc⟩ := hle c hc
    exact Option.some.inj hk ▸ hkc

theorem IsLeastOf.mem (h : IsLeastOf costs least) : ∀ m ∈ least, m ∈ costs := by
  rintro m rfl
  exact h.1

theorem IsLeastOf.exists_le (h : IsLeastOf costs least) (hc : c ∈ costs) :
    ∃ m ∈ least, m ≤ c := by
  cases least with
  | none => exact absurd hc (Set.eq_empty_iff_forall_notMem.1 h c)
  | some m => exact ⟨m, rfl, h.2 hc⟩

theorem IsLeastOf.le_of_subset {more : Set α} {least' : Option α} (h : IsLeastOf costs least)
    (h' : IsLeastOf more least') (hsub : costs ⊆ more) : ∀ m ∈ least, ∃ k ∈ least', k ≤ m := by
  intro m hm
  exact h'.exists_le (hsub (h.mem m hm))

theorem IsLeastOf.eq_none_iff (h : IsLeastOf costs least) : least = none ↔ ∀ c, c ∉ costs := by
  cases least with
  | none => exact iff_of_true rfl (Set.eq_empty_iff_forall_notMem.1 h)
  | some m => exact iff_of_false (Option.some_ne_none m) fun hno => hno m h.1

end

section

variable [LawfulScalar α]

protected theorem min_le_left (ha : a ≤ a) : Scalar.min a b ≤ a := by
  rw [Scalar.min]
  split
  · exact ha
  · rename_i hab
    split
    · rename_i hb
      exact (LawfulScalar.le_total ha hb).resolve_left hab
    · exact ha

theorem exists_least_le_of_le (h : ∃ m ∈ seen, m ≤ c) (d : α) :
    ∃ m ∈ Scalar.least seen d, m ≤ c := by
  obtain ⟨m, rfl, hmc⟩ := h
  have hmin : Scalar.min m d ≤ m := Scalar.min_le_left (LawfulScalar.le_refl_of_le hmc).1
  exact ⟨_, rfl, LawfulScalar.le_trans hmin hmc⟩

theorem exists_foldl_least_le (h : (c ∈ costs ∧ c ≤ c) ∨ ∃ m ∈ seen, m ≤ c) :
    ∃ m ∈ costs.foldl Scalar.least seen, m ≤ c := by
  induction costs generalizing seen with
  | nil => exact h.resolve_left fun hc => List.not_mem_nil hc.1
  | cons d rest ih =>
    apply ih
    rcases h with ⟨hc, hnum⟩ | h
    · rcases List.mem_cons.1 hc with rfl | hc
      · exact .inr (exists_least_le seen hnum)
      · exact .inl ⟨hc, hnum⟩
    · exact .inr (exists_least_le_of_le h d)

theorem isLeastOf_foldl_least (h : ∀ c ∈ costs, c ≤ c) :
    IsLeastOf {c | c ∈ costs} (costs.foldl Scalar.least none) := by
  apply isLeastOf_of_mem_of_le
  · intro m hm
    exact (mem_of_foldl_least hm).resolve_left (Option.some_ne_none m).symm
  · intro c hc
    exact exists_foldl_least_le (.inl ⟨hc, h c hc⟩)

end

end Scalar

end TourPricing
