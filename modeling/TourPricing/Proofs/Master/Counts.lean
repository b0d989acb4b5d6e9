import TourPricing.Proofs.Exact
import TourPricing.Proofs.Master.Submissions

namespace TourPricing

/-- Numbers in which whole numbers up to a limit are added without an error. Doubles are such
numbers up to `2 ^ 53`. -/
class CountsUpTo (α : Type) [Scalar α] (limit : Nat) : Prop where
  add_ofNat : ∀ {m n : Nat}, m + n ≤ limit →
    (Scalar.ofNat m + Scalar.ofNat n : α) = Scalar.ofNat (m + n)
  ofNat_mul_one : ∀ {n : Nat}, n ≤ limit → (Scalar.ofNat n * Scalar.ofNat 1 : α) = Scalar.ofNat n
  not_ofNat_lt : ∀ {n : Nat}, n ≤ limit → ¬ (Scalar.ofNat n : α) < Scalar.ofNat n

instance (limit : Nat) : CountsUpTo Rat limit where
  add_ofNat _ := (Nat.cast_add _ _).symm
  ofNat_mul_one {n} _ := (congrArg ((n : Rat) * ·) Nat.cast_one).trans (mul_one (n : Rat))
  not_ofNat_lt {n} _ := lt_irrefl (n : Rat)

section

variable {β : Type} {f : β → β} {l : List β} {i : Nat}

theorem map_modify_of_forall {γ : Type} {p : β → γ} (h : ∀ b, p (f b) = p b) :
    (l.modify i f).map p = l.map p := by
  induction l generalizing i with
  | nil => cases i <;> rfl
  | cons b rest ih =>
    cases i with
    | zero => simp [h]
    | succ i => simp [ih]

theorem total_map_modify {g : β → Nat} (h : ∀ b, g (f b) = g b + 1) (hi : i < l.length) :
    total ((l.modify i f).map g) = total (l.map g) + 1 := by
  induction l generalizing i with
  | nil => exact absurd hi (Nat.not_lt_zero i)
  | cons b rest ih =>
    cases i with
    | zero => simp [h]; omega
    | succ i => simp [ih (Nat.lt_of_succ_lt_succ hi)]; omega

end

namespace Ledger

variable {α : Type} {l l' : Ledger α} {r : RowId} {v : VariableId} {a : α} {n k c : Nat}
  {entries : List (RowId × α)}

structure HasCounts (l : Ledger α) (n k c : Nat) : Prop where
  columns : l.variableCount = n
  rows : l.rowCount = k
  coefficients : l.coefficientCount = c

theorem hasCounts_withEdges [Scalar α] (n : Nat) : (withEdges n : Ledger α).HasCounts 0 n 0 := by
  constructor
  case columns => rfl
  case rows => simp [rowCount, withEdges, Function.comp_def]
  case coefficients =>
    have hnone : ∀ m, total ((List.range m).map fun _ => 0) = 0 := by
      intro m
      induction m with
      | zero => rfl
      | succ m ih => rw [List.range_succ, List.map_append, total_append, ih]; rfl
    simpa [coefficientCount, withEdges, Function.comp_def] using hnone n

namespace HasCounts

variable (h : l.HasCounts n k c)

include h

theorem of_sameModel (hl : SameModel l l') : l'.HasCounts n k c := by
  obtain ⟨rfl, rfl, rfl⟩ := h
  constructor
  case columns => rw [variableCount, variableCount, hl.columns]
  case rows => rw [rowCount, rowCount, hl.rows]
  case coefficients => rw [coefficientCount, coefficientCount, hl.rows]

theorem addVariable (name : String) (objective : α) (domain : Domain) :
    (l.addVariable name objective domain).2.HasCounts (n + 1) k c := by
  obtain ⟨rfl, rfl, rfl⟩ := h
  exact ⟨by simp [variableCount, Ledger.addVariable], rfl, rfl⟩

theorem addRow (name : String) (rhs : α) : (l.addRow name rhs).2.HasCounts n (k + 1) c := by
  obtain ⟨rfl, rfl, rfl⟩ := h
  exact ⟨rfl, by simp [rowCount, Ledger.addRow], by simp [coefficientCount, Ledger.addRow]⟩

theorem of_addCoefficient (hadd : l.withCoefficient r v a = .ok l') :
    l'.HasCounts n k (c + 1) := by
  obtain ⟨rfl, rfl, rfl⟩ := h
  obtain ⟨_, hr, rfl⟩ := eq_of_addCoefficient hadd
  constructor
  case columns => rfl
  case rows =>
    have hmap := map_modify_of_forall (i := r.index) (l := l.rows.toList)
      (f := fun row : RowRecord α => { row with coefficients := row.coefficients ++ [(v, a)] })
      (p := fun row => !row.released) fun _ => rfl
    have hcount := congrArg (List.countP id) hmap
    rw [List.countP_map, List.countP_map] at hcount
    rw [rowCount, rowCount, ← Array.countP_toList, ← Array.countP_toList, Array.toList_modify]
    exact hcount
  case coefficients =>
    have hlt := lt_of_usedRow? hr
    rw [coefficientCount, Array.toList_modify]
    exact total_map_modify (fun row => List.length_append) hlt

theorem of_enter (henter : l.enter v entries = .ok l') :
    l'.HasCounts n k (c + entries.length) := by
  induction entries generalizing l c with
  | nil =>
    obtain rfl := Except.ok.inj henter
    exact h
  | cons entry rest ih =>
    obtain ⟨middle, hadd, hrest⟩ := enter_cons henter
    have hall := ih (h.of_addCoefficient hadd) hrest
    rwa [Nat.add_assoc, Nat.add_comm 1] at hall

end HasCounts

theorem exists_enter (hv : (l.usedVariable? v).isSome)
    (hr : ∀ entry ∈ entries, (l.usedRow? entry.1).isSome) :
    ∃ l', l.enter v entries = .ok l' := by
  induction entries generalizing l with
  | nil => exact ⟨l, rfl⟩
  | cons entry rest ih =>
    obtain ⟨hfirst, hrest⟩ := List.forall_mem_cons.1 hr
    obtain ⟨record, hrecord⟩ := Option.isSome_iff_exists.1 hv
    obtain ⟨row, hrow⟩ := Option.isSome_iff_exists.1 hfirst
    obtain ⟨middle, hadd⟩ : ∃ middle, l.withCoefficient entry.1 v entry.2 = .ok middle := by
      rw [withCoefficient, hrecord, hrow]
      exact ⟨_, rfl⟩
    have hchanges := changes_of_addCoefficient hadd
    obtain ⟨l', hl'⟩ := ih (l := middle) (by rw [usedVariable?_of_addCoefficient hadd, hv])
      fun other hother => by rw [hchanges.rows, hrest other hother]
    refine ⟨l', ?_⟩
    rw [enter, List.foldlM_cons, hadd]
    exact hl'

theorem value_eq_total [Scalar α] {limit : Nat} [CountsUpTo α limit]
    {used : List (VariableId × Nat)}
    (h : ∀ p ∈ used, (l.usedVariable? p.1).map (·.objective) = some (Scalar.ofNat p.2))
    (hle : total (used.map (·.2)) ≤ limit) :
    l.value (used.map fun p => (p.1, Scalar.ofNat 1)) =
      .ok (Scalar.ofNat (total (used.map (·.2)))) := by
  rw [← Nat.zero_add (total _)] at hle ⊢
  rw [value]
  generalize 0 = start at hle ⊢
  induction used generalizing start with
  | nil => rfl
  | cons p rest ih =>
    obtain ⟨hp, hrest⟩ := List.forall_mem_cons.1 h
    obtain ⟨record, hrecord, hcost⟩ := Option.map_eq_some_iff.1 hp
    rw [List.map_cons, total_cons, ← Nat.add_assoc] at hle
    have hmul : (Scalar.ofNat p.2 * Scalar.ofNat 1 : α) = Scalar.ofNat p.2 :=
      CountsUpTo.ofNat_mul_one (Nat.le_trans (by omega) hle)
    have hadd : (Scalar.ofNat start + Scalar.ofNat p.2 : α) = Scalar.ofNat (start + p.2) :=
      CountsUpTo.add_ofNat (Nat.le_trans (by omega) hle)
    rw [List.map_cons, List.foldlM_cons, List.map_cons, total_cons, ← Nat.add_assoc]
    dsimp only
    rw [hrecord]
    dsimp only
    rw [hcost, hmul, hadd]
    exact ih hrest (start + p.2) hle

end Ledger

end TourPricing
