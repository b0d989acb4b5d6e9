import Mathlib.Data.List.Basic
import Mathlib.Order.Basic
import TourPricing.Proofs.Master.Outcomes

namespace TourPricing

theorem RowId.ext_iff {r s : RowId} : r = s ↔ r.index = s.index := by
  cases r
  cases s
  simp

theorem VariableId.ext_iff {v w : VariableId} : v = w ↔ v.index = w.index := by
  cases v
  cases w
  simp

namespace Ledger

variable {α : Type} {l l' l'' : Ledger α} {v w : VariableId} {r s : RowId} {a : α}

/-- The numbers that are entered for a variable in a row, whether or not the two are in use. -/
def coefficientsAt (l : Ledger α) (r : RowId) (v : VariableId) : List α :=
  ((l.rows[r.index]?.elim [] (·.coefficients)).filter fun c => c.1 = v).map (·.2)

theorem lt_of_usedVariable? (h : (l.usedVariable? v).isSome) : v.index < l.columns.size := by
  by_contra hlt
  rw [usedVariable?, Array.getElem?_eq_none (Nat.le_of_not_lt hlt)] at h
  exact nomatch h

theorem lt_of_usedRow? (h : (l.usedRow? r).isSome) : r.index < l.rows.size := by
  by_contra hlt
  rw [usedRow?, Array.getElem?_eq_none (Nat.le_of_not_lt hlt)] at h
  exact nomatch h

theorem isSome_usedRow?_of_map {f : RowRecord α → RowRecord α}
    (h : l'.rows[r.index]? = l.rows[r.index]?.map f) (hf : ∀ row, (f row).released = row.released) :
    (l'.usedRow? r).isSome = (l.usedRow? r).isSome := by
  rw [usedRow?, usedRow?, h, Option.isSome_filter, Option.isSome_filter, Option.any_map]
  simp only [hf]

theorem coefficientsAt_of_map {f : RowRecord α → RowRecord α}
    (h : l'.rows[r.index]? = l.rows[r.index]?.map f)
    (hf : ∀ row, ((f row).coefficients.filter fun c => c.1 = v) =
      row.coefficients.filter fun c => c.1 = v) : l'.coefficientsAt r v = l.coefficientsAt r v := by
  rw [coefficientsAt, coefficientsAt, h]
  cases l.rows[r.index]? with
  | none => rfl
  | some row => exact congrArg _ (hf row)

theorem run_linkingRow [Scalar α] (e : Nat) (l : Ledger α) :
    (Master.linkingRow e : Ask (Ledger α) RowId).run l =
      (if e < l.linkingCount then .ok ⟨e⟩ else .error (.missingLinkingRow e), l) := by
  have hreads : (Master.linkingRow e : Ask (Ledger α) RowId).run l =
      (if e < l.linkingCount then pure ⟨e⟩ else throw (.missingLinkingRow e) :
        Ask (Ledger α) RowId).run l := rfl
  rw [hreads]
  split <;> rfl

/-- The second ledger may say something else than the first one about a variable, but about nothing
besides. -/
structure ChangesOnly (v : VariableId) (l l' : Ledger α) : Prop where
  linkingCount : l'.linkingCount = l.linkingCount
  size : l.columns.size ≤ l'.columns.size
  known : v.index < l'.columns.size
  used : ∀ w, w ≠ v → l'.usedVariable? w = l.usedVariable? w
  rows : ∀ r, (l'.usedRow? r).isSome = (l.usedRow? r).isSome
  coefficients : ∀ r w, w ≠ v → l'.coefficientsAt r w = l.coefficientsAt r w

namespace ChangesOnly

theorem refl (h : v.index < l.columns.size) : ChangesOnly v l l :=
  ⟨rfl, Nat.le_refl _, h, fun _ _ => rfl, fun _ => rfl, fun _ _ _ => rfl⟩

theorem trans (h : ChangesOnly v l l') (h' : ChangesOnly v l' l'') : ChangesOnly v l l'' where
  linkingCount := h'.linkingCount.trans h.linkingCount
  size := Nat.le_trans h.size h'.size
  known := h'.known
  used w hw := (h'.used w hw).trans (h.used w hw)
  rows r := (h'.rows r).trans (h.rows r)
  coefficients r w hw := (h'.coefficients r w hw).trans (h.coefficients r w hw)

end ChangesOnly

theorem addVariable_changes (l : Ledger α) (name : String) (objective : α) (domain : Domain) :
    ChangesOnly ⟨l.columns.size⟩ l (l.addVariable name objective domain).2 where
  linkingCount := rfl
  size := by simp [addVariable]
  known := by simp [addVariable]
  used w hw := by
    rw [usedVariable?, usedVariable?, addVariable, Array.getElem?_push,
      if_neg (mt VariableId.ext_iff.2 hw)]
  rows _ := rfl
  coefficients _ _ _ := rfl

theorem usedVariable?_addVariable (l : Ledger α) (name : String) (objective : α) (domain : Domain) :
    (l.addVariable name objective domain).2.usedVariable? ⟨l.columns.size⟩ =
      some ⟨name, objective, domain, false⟩ := by
  simp [usedVariable?, addVariable]

theorem eq_of_addCoefficient (h : l.withCoefficient r v a = .ok l') :
    (l.usedVariable? v).isSome ∧ (l.usedRow? r).isSome ∧ l' = { l with
      rows := l.rows.modify r.index fun row =>
        { row with coefficients := row.coefficients ++ [(v, a)] } } := by
  rw [withCoefficient] at h
  split at h
  · cases h
  · cases h
  · rename_i hv hr
    exact ⟨by rw [hv]; rfl, by rw [hr]; rfl, (Except.ok.inj h).symm⟩

theorem rows_of_addCoefficient (h : l.withCoefficient r v a = .ok l') (s : RowId) :
    l'.rows[s.index]? = l.rows[s.index]?.map fun row =>
      if s = r then { row with coefficients := row.coefficients ++ [(v, a)] } else row := by
  obtain ⟨_, _, rfl⟩ := eq_of_addCoefficient h
  rw [Array.getElem?_modify]
  by_cases hs : s = r
  · simp [hs]
  · simp [hs, mt RowId.ext_iff.2 (Ne.symm hs)]

theorem changes_of_addCoefficient (h : l.withCoefficient r v a = .ok l') : ChangesOnly v l l' where
  linkingCount := by
    obtain ⟨_, _, rfl⟩ := eq_of_addCoefficient h
    rfl
  size := by
    obtain ⟨_, _, rfl⟩ := eq_of_addCoefficient h
    exact Nat.le_refl _
  known := by
    obtain ⟨hv, _, rfl⟩ := eq_of_addCoefficient h
    exact lt_of_usedVariable? hv
  used w _ := by
    obtain ⟨_, _, rfl⟩ := eq_of_addCoefficient h
    rfl
  rows s := isSome_usedRow?_of_map (rows_of_addCoefficient h s) fun row => by split <;> rfl
  coefficients s w hw := coefficientsAt_of_map (rows_of_addCoefficient h s) fun row => by
    split
    · simp [Ne.symm hw]
    · rfl

theorem usedVariable?_of_addCoefficient (h : l.withCoefficient r v a = .ok l') :
    l'.usedVariable? v = l.usedVariable? v := by
  obtain ⟨_, _, rfl⟩ := eq_of_addCoefficient h
  rfl

theorem coefficientsAt_of_addCoefficient (h : l.withCoefficient r v a = .ok l') (s : RowId) :
    l'.coefficientsAt s v = l.coefficientsAt s v ++ if s = r then [a] else [] := by
  rw [coefficientsAt, coefficientsAt, rows_of_addCoefficient h]
  by_cases hs : s = r
  · obtain ⟨_, hr, _⟩ := eq_of_addCoefficient h
    subst hs
    rw [Array.getElem?_eq_getElem (lt_of_usedRow? hr)]
    simp
  · simp [hs]

def enter (v : VariableId) (l : Ledger α) (entries : List (RowId × α)) :
    Except MasterError (Ledger α) :=
  entries.foldlM (fun l entry => l.withCoefficient entry.1 v entry.2) l

def amounts (entries : List (RowId × α)) (r : RowId) : List α :=
  (entries.filter fun entry => entry.1 = r).map (·.2)

theorem enter_cons {entries : List (RowId × α)} (h : l.enter v ((r, a) :: entries) = .ok l') :
    ∃ middle, l.withCoefficient r v a = .ok middle ∧ middle.enter v entries = .ok l' := by
  rw [enter, List.foldlM_cons] at h
  cases hadd : l.withCoefficient r v a with
  | error e =>
    rw [hadd] at h
    cases h
  | ok middle =>
    rw [hadd] at h
    exact ⟨middle, rfl, h⟩

theorem enter_concat {entries : List (RowId × α)} {entry : RowId × α}
    (h : l.enter v entries = .ok l') (hadd : l'.withCoefficient entry.1 v entry.2 = .ok l'') :
    l.enter v (entries ++ [entry]) = .ok l'' := by
  rw [enter] at h ⊢
  rw [List.foldlM_append, h]
  change l'.enter v [entry] = .ok l''
  rw [enter, List.foldlM_cons, hadd]
  rfl

theorem changes_of_enter {entries : List (RowId × α)} (hv : v.index < l.columns.size)
    (h : l.enter v entries = .ok l') :
    ChangesOnly v l l' ∧ l'.usedVariable? v = l.usedVariable? v := by
  induction entries generalizing l with
  | nil =>
    obtain rfl := Except.ok.inj h
    exact ⟨.refl hv, rfl⟩
  | cons entry entries ih =>
    obtain ⟨middle, hadd, hrest⟩ := enter_cons h
    have hfirst := changes_of_addCoefficient hadd
    obtain ⟨hchanges, hused⟩ := ih hfirst.known hrest
    exact ⟨hfirst.trans hchanges, hused.trans (usedVariable?_of_addCoefficient hadd)⟩

theorem coefficientsAt_of_enter {entries : List (RowId × α)} (h : l.enter v entries = .ok l')
    (r : RowId) : l'.coefficientsAt r v = l.coefficientsAt r v ++ amounts entries r := by
  induction entries generalizing l with
  | nil =>
    obtain rfl := Except.ok.inj h
    exact (List.append_nil _).symm
  | cons entry entries ih =>
    obtain ⟨middle, hadd, hrest⟩ := enter_cons h
    rw [ih hrest, coefficientsAt_of_addCoefficient hadd, List.append_assoc]
    congr 1
    by_cases hr : r = entry.1
    · simp [amounts, hr]
    · simp [amounts, hr, Ne.symm hr]

theorem eq_of_releaseVariable (h : l.withoutVariable v = .ok l') :
    (l.usedVariable? v).isSome ∧ l' = { l with
      columns := l.columns.modify v.index ({ · with released := true })
      rows := l.rows.map fun row =>
        { row with coefficients := row.coefficients.filter fun c => c.1 != v } } := by
  rw [withoutVariable] at h
  split at h
  · cases h
  · rename_i hv
    exact ⟨by rw [hv]; rfl, (Except.ok.inj h).symm⟩

theorem exists_releaseVariable (h : (l.usedVariable? v).isSome) :
    ∃ l', l.withoutVariable v = .ok l' := by
  obtain ⟨record, hv⟩ := Option.isSome_iff_exists.1 h
  rw [withoutVariable, hv]
  exact ⟨_, rfl⟩

theorem changes_of_releaseVariable (h : l.withoutVariable v = .ok l') : ChangesOnly v l l' := by
  obtain ⟨hv, rfl⟩ := eq_of_releaseVariable h
  have hlt := lt_of_usedVariable? hv
  constructor
  case linkingCount => rfl
  case size => simp
  case known => simpa using hlt
  case used =>
    intro w hw
    have hne : v.index ≠ w.index := mt VariableId.ext_iff.2 (Ne.symm hw)
    rw [usedVariable?, usedVariable?, Array.getElem?_modify, if_neg hne]
  case rows =>
    intro r
    exact isSome_usedRow?_of_map Array.getElem?_map fun _ => rfl
  case coefficients =>
    intro r w hw
    refine coefficientsAt_of_map Array.getElem?_map fun row => ?_
    rw [List.filter_filter]
    apply List.filter_congr
    intro c _
    by_cases hc : c.1 = w
    · simp [hc, hw]
    · simp [hc]

theorem usedVariable?_of_releaseVariable (h : l.withoutVariable v = .ok l') :
    l'.usedVariable? v = none := by
  obtain ⟨_, rfl⟩ := eq_of_releaseVariable h
  rw [usedVariable?, Array.getElem?_modify, if_pos rfl]
  cases l.columns[v.index]? <;> rfl

theorem coefficientsAt_of_releaseVariable (h : l.withoutVariable v = .ok l') (r : RowId) :
    l'.coefficientsAt r v = [] := by
  obtain ⟨_, rfl⟩ := eq_of_releaseVariable h
  rw [coefficientsAt, Array.getElem?_map]
  cases l.rows[r.index]? with
  | none => rfl
  | some row =>
    rw [List.map_eq_nil_iff, List.filter_eq_nil_iff]
    intro c hc
    simpa using (List.mem_filter.1 hc).2

theorem coefficientsAt_addRow (l : Ledger α) (name : String) (rhs : α) (s : RowId)
    (v : VariableId) : (l.addRow name rhs).2.coefficientsAt s v = l.coefficientsAt s v := by
  rw [coefficientsAt, coefficientsAt, addRow, Array.getElem?_push]
  split
  · rename_i hs
    rw [hs, Array.getElem?_eq_none (Nat.le_refl _)]
    rfl
  · rfl

theorem usedRow?_addRow (l : Ledger α) (name : String) (rhs : α) (s : RowId) :
    (l.addRow name rhs).2.usedRow? s =
      if s = ⟨l.rows.size⟩ then some ⟨name, rhs, [], false⟩ else l.usedRow? s := by
  rw [usedRow?, usedRow?, addRow, Array.getElem?_push]
  by_cases hs : s = ⟨l.rows.size⟩
  · rw [if_pos (RowId.ext_iff.1 hs), if_pos hs]
    rfl
  · rw [if_neg (mt RowId.ext_iff.2 hs), if_neg hs]

theorem eq_of_releaseRow (h : l.withoutRow r = .ok l') :
    (l.usedRow? r).isSome ∧
      l' = { l with rows := l.rows.modify r.index ({ · with released := true }) } := by
  rw [withoutRow] at h
  split at h
  · cases h
  · rename_i hr
    exact ⟨by rw [hr]; rfl, (Except.ok.inj h).symm⟩

theorem exists_releaseRow (h : (l.usedRow? r).isSome) : ∃ l', l.withoutRow r = .ok l' := by
  obtain ⟨record, hr⟩ := Option.isSome_iff_exists.1 h
  rw [withoutRow, hr]
  exact ⟨_, rfl⟩

theorem coefficientsAt_of_releaseRow (h : l.withoutRow r = .ok l') (s : RowId) (v : VariableId) :
    l'.coefficientsAt s v = l.coefficientsAt s v := by
  obtain ⟨_, rfl⟩ := eq_of_releaseRow h
  rw [coefficientsAt, coefficientsAt, Array.getElem?_modify]
  split
  · cases l.rows[s.index]? <;> rfl
  · rfl

theorem usedRow?_of_releaseRow (h : l.withoutRow r = .ok l') (s : RowId) :
    l'.usedRow? s = if s = r then none else l.usedRow? s := by
  obtain ⟨_, rfl⟩ := eq_of_releaseRow h
  rw [usedRow?, usedRow?, Array.getElem?_modify]
  by_cases hs : s = r
  · rw [if_pos (RowId.ext_iff.1 hs.symm), if_pos hs]
    cases l.rows[s.index]? <;> rfl
  · rw [if_neg (mt RowId.ext_iff.2 (Ne.symm hs)), if_neg hs]

structure SameModel (l l' : Ledger α) : Prop where
  columns : l'.columns = l.columns
  rows : l'.rows = l.rows
  linkingCount : l'.linkingCount = l.linkingCount

namespace SameModel

theorem usedVariable? (h : SameModel l l') (v : VariableId) :
    l'.usedVariable? v = l.usedVariable? v := by
  rw [Ledger.usedVariable?, Ledger.usedVariable?, h.columns]

theorem usedRow? (h : SameModel l l') (r : RowId) : l'.usedRow? r = l.usedRow? r := by
  rw [Ledger.usedRow?, Ledger.usedRow?, h.rows]

theorem coefficientsAt (h : SameModel l l') (r : RowId) (v : VariableId) :
    l'.coefficientsAt r v = l.coefficientsAt r v := by
  rw [Ledger.coefficientsAt, Ledger.coefficientsAt, h.rows]

end SameModel

theorem sameModel_apply (l : Ledger α) (settings : LedgerSettings α) :
    SameModel l (l.apply settings) :=
  ⟨rfl, rfl, rfl⟩

theorem sameModel_of_submit [Scalar α] {assignment : List (VariableId × α)} {accepted : Bool}
    (h : l.withSubmission assignment = .ok (accepted, l')) : SameModel l l' := by
  rw [withSubmission] at h
  cases hvalue : l.value assignment with
  | error e =>
    rw [hvalue] at h
    cases h
  | ok objective =>
    rw [hvalue] at h
    obtain ⟨_, rfl⟩ := Prod.mk.inj (Except.ok.inj h)
    exact ⟨rfl, rfl, rfl⟩

theorem usedVariable?_withEdges [Scalar α] (n : Nat) (v : VariableId) :
    (withEdges n : Ledger α).usedVariable? v = none :=
  rfl

theorem row_withEdges [Scalar α] (n : Nat) (r : RowId) :
    (withEdges n : Ledger α).rows[r.index]? =
      if r.index < n then some ⟨s!"link_{r.index}", Scalar.ofNat 0, [], false⟩ else none := by
  rw [withEdges, List.getElem?_toArray, List.getElem?_map]
  split
  · rename_i hr
    rw [List.getElem?_range hr, Option.map_some]
  · rename_i hr
    rw [List.getElem?_eq_none (by rw [List.length_range]; exact Nat.not_lt.1 hr), Option.map_none]

theorem isSome_usedRow?_withEdges [Scalar α] (n : Nat) (r : RowId) :
    ((withEdges n : Ledger α).usedRow? r).isSome = true ↔ r.index < n := by
  rw [usedRow?, row_withEdges]
  split <;> simp [*]

theorem coefficientsAt_withEdges [Scalar α] (n : Nat) (r : RowId) (v : VariableId) :
    (withEdges n : Ledger α).coefficientsAt r v = [] := by
  rw [Ledger.coefficientsAt, row_withEdges]
  split <;> rfl

end Ledger

end TourPricing
