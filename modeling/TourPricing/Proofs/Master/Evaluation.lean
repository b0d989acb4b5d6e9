import Mathlib.Algebra.BigOperators.Ring.List
import TourPricing.Proofs.Exact
import TourPricing.Proofs.Master.Ledger

namespace TourPricing.Ledger

variable {l : Ledger Rat} {assignment : List (VariableId × Rat)}

def rowValue (l : Ledger Rat) (assignment : List (VariableId × Rat)) (r : RowId) : Rat :=
  ((l.rows[r.index]?.elim [] (·.coefficients)).map fun c =>
    c.2 * (assignment.lookup c.1).getD 0).sum

theorem sum_eq_lookup (h : (assignment.map (·.1)).Nodup) (v : VariableId) (a : Rat) :
    (assignment.map fun x => (if v = x.1 then a else 0) * x.2).sum =
      a * (assignment.lookup v).getD 0 := by
  induction assignment with
  | nil => simp
  | cons x rest ih =>
    obtain ⟨hx, hrest⟩ := List.nodup_cons.1 h
    rw [List.map_cons, List.sum_cons, List.lookup_cons, ih hrest]
    by_cases he : v = x.1
    · subst he
      have hnone : rest.lookup x.1 = none :=
        List.lookup_eq_none_iff.2 fun p hp => bne_iff_ne.2 fun hpx =>
          hx (List.mem_map.2 ⟨p, hp, hpx.symm⟩)
      simp [hnone]
    · simp [he, beq_false_of_ne he]

theorem rowValue_eq (h : (assignment.map (·.1)).Nodup) (r : RowId) :
    l.rowValue assignment r =
      (assignment.map fun x => (l.coefficientsAt r x.1).sum * x.2).sum := by
  unfold rowValue coefficientsAt
  induction l.rows[r.index]?.elim [] (·.coefficients) with
  | nil => simp
  | cons c rest ih =>
    rw [List.map_cons, List.sum_cons, ih, ← sum_eq_lookup h, ← List.sum_map_add]
    congr 1
    apply List.map_congr_left
    intro x _
    by_cases hc : c.1 = x.1 <;> simp [hc, add_mul]

theorem value_eq (costs : VariableId → Rat)
    (h : ∀ x ∈ assignment, (l.usedVariable? x.1).map (·.objective) = some (costs x.1)) :
    l.value assignment = .ok (assignment.map fun x => costs x.1 * x.2).sum := by
  have hzero : (Scalar.ofNat 0 : Rat) = 0 := Nat.cast_zero
  rw [value, hzero, ← zero_add (List.sum _)]
  generalize (0 : Rat) = start
  induction assignment generalizing start with
  | nil => exact congrArg Except.ok (add_zero start).symm
  | cons x rest ih =>
    obtain ⟨v, a⟩ := x
    obtain ⟨record, hrecord, hcost⟩ := Option.map_eq_some_iff.1 (h (v, a) List.mem_cons_self)
    have hrest := ih (fun y hy => h y (List.mem_cons_of_mem _ hy)) (start + record.objective * a)
    rw [List.foldlM_cons, List.map_cons, List.sum_cons, ← add_assoc, ← hcost]
    dsimp only at hrecord ⊢
    rw [hrecord]
    exact hrest

end TourPricing.Ledger
