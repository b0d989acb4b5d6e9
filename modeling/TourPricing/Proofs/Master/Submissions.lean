import TourPricing.Proofs.Master.Ledger

namespace TourPricing

namespace Ledger

variable {α : Type} {l l' l'' : Ledger α} {v : VariableId} {r : RowId} {a : α}

structure SameRecord (l l' : Ledger α) : Prop where
  submissions : l'.submissions = l.submissions
  bestAccepted : l'.bestAccepted = l.bestAccepted

namespace SameRecord

theorem refl (l : Ledger α) : SameRecord l l :=
  ⟨rfl, rfl⟩

theorem trans (h : SameRecord l l') (h' : SameRecord l' l'') : SameRecord l l'' :=
  ⟨h'.submissions.trans h.submissions, h'.bestAccepted.trans h.bestAccepted⟩

theorem of_addCoefficient (h : l.withCoefficient r v a = .ok l') : SameRecord l l' := by
  obtain ⟨_, _, rfl⟩ := eq_of_addCoefficient h
  exact ⟨rfl, rfl⟩

theorem of_enter {entries : List (RowId × α)} (h : l.enter v entries = .ok l') :
    SameRecord l l' := by
  induction entries generalizing l with
  | nil =>
    obtain rfl := Except.ok.inj h
    exact refl l
  | cons entry entries ih =>
    obtain ⟨middle, hadd, hrest⟩ := enter_cons h
    exact (of_addCoefficient hadd).trans (ih hrest)

theorem of_releaseVariable (h : l.withoutVariable v = .ok l') : SameRecord l l' := by
  obtain ⟨_, rfl⟩ := eq_of_releaseVariable h
  exact ⟨rfl, rfl⟩

theorem of_releaseRow (h : l.withoutRow r = .ok l') : SameRecord l l' := by
  obtain ⟨_, rfl⟩ := eq_of_releaseRow h
  exact ⟨rfl, rfl⟩

end SameRecord

theorem exists_submit [Scalar α] {assignment : List (VariableId × α)} {objective : α}
    (h : l.value assignment = .ok objective) : ∃ l', l.withSubmission assignment =
      .ok (!assignment.isEmpty && l.bestAccepted.all (objective < ·), l') := by
  rw [withSubmission, h]
  exact ⟨_, rfl⟩

theorem eq_of_submit [Scalar α] {assignment : List (VariableId × α)} {accepted : Bool}
    (h : l.withSubmission assignment = .ok (accepted, l')) :
    ∃ objective, l.value assignment = .ok objective ∧
      accepted = (!assignment.isEmpty && l.bestAccepted.all (objective < ·)) ∧
      l' = { l with
        bestAccepted := if accepted then some objective else l.bestAccepted
        submissions := l.submissions.push ⟨assignment, objective, accepted⟩ } := by
  rw [withSubmission] at h
  cases hvalue : l.value assignment with
  | error e =>
    rw [hvalue] at h
    cases h
  | ok objective =>
    rw [hvalue] at h
    obtain ⟨rfl, rfl⟩ := Prod.mk.inj (Except.ok.inj h)
    exact ⟨objective, rfl, rfl, rfl⟩

end Ledger

end TourPricing
