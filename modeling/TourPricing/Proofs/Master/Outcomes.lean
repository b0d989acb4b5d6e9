import TourPricing.Master.Ledger
import TourPricing.Proofs.Preserves

namespace TourPricing

/-- A request that changes nothing when it is refused. -/
def Ask.attempt {M β : Type} (outcome : M → Except MasterError (β × M)) : Ask M β :=
  ExceptT.mk fun m =>
    match outcome m with
    | .ok (b, m) => (.ok b, m)
    | .error e => (.error e, m)

theorem Ask.run_attempt {M β : Type} (outcome : M → Except MasterError (β × M)) (m : M) :
    (Ask.attempt outcome).run m = match outcome m with
      | .ok (b, m) => (.ok b, m)
      | .error e => (.error e, m) := by
  cases h : outcome m <;> simp [Ask.attempt, ExceptT.run, ExceptT.mk, h]

theorem Ask.modifyGet_eq {M β : Type} (f : M → β × M) :
    (modifyGet f : Ask M β) = .attempt fun m => .ok (f m) :=
  rfl

theorem Ask.run_discard_bind {M β γ : Type} (c : Ask M β) (k : Unit → Ask M γ) (m : M) :
    (discard c >>= k).run m = match c.run m with
      | (.ok _, m) => (k ()).run m
      | (.error e, m) => (.error e, m) := by
  have hdiscard : discard c = c >>= fun _ => pure () := rfl
  rw [run_bind, hdiscard, run_bind]
  rcases c.run m with ⟨_ | _, m⟩ <;> rfl

namespace Ledger

variable {α : Type}

def withCoefficient (l : Ledger α) (r : RowId) (v : VariableId) (a : α) :
    Except MasterError (Ledger α) :=
  match l.usedVariable? v, l.usedRow? r with
  | none, _ => .error (.unknownVariable v)
  | _, none => .error (.unknownRow r)
  | some _, some _ => .ok { l with
      rows := l.rows.modify r.index fun row =>
        { row with coefficients := row.coefficients ++ [(v, a)] } }

def withSubmission [Scalar α] (l : Ledger α) (assignment : List (VariableId × α)) :
    Except MasterError (Bool × Ledger α) := do
  let objective ← l.value assignment
  let accepted := !assignment.isEmpty && l.bestAccepted.all (objective < ·)
  pure (accepted, { l with
    bestAccepted := if accepted then some objective else l.bestAccepted
    submissions := l.submissions.push ⟨assignment, objective, accepted⟩ })

def withoutVariable (l : Ledger α) (v : VariableId) : Except MasterError (Ledger α) :=
  match l.usedVariable? v with
  | none => .error (.unknownVariable v)
  | some _ => .ok { l with
      columns := l.columns.modify v.index ({ · with released := true })
      rows := l.rows.map fun row =>
        { row with coefficients := row.coefficients.filter fun c => c.1 != v } }

def withoutRow (l : Ledger α) (r : RowId) : Except MasterError (Ledger α) :=
  match l.usedRow? r with
  | none => .error (.unknownRow r)
  | some _ => .ok { l with rows := l.rows.modify r.index ({ · with released := true }) }

theorem run_column (v : VariableId) (l : Ledger α) :
    (column v).run l = ((l.usedVariable? v).elim (.error (.unknownVariable v)) .ok, l) := by
  rw [column, run_get_bind]
  cases l.usedVariable? v <;> rfl

theorem run_row (r : RowId) (l : Ledger α) :
    (row r).run l = ((l.usedRow? r).elim (.error (.unknownRow r)) .ok, l) := by
  rw [row, run_get_bind]
  cases l.usedRow? r <;> rfl

theorem addCoefficient_eq (r : RowId) (v : VariableId) (a : α) :
    addCoefficient r v a = Ask.attempt fun l => (l.withCoefficient r v a).map ((), ·) := by
  funext l
  change (addCoefficient r v a).run l = (Ask.attempt _).run l
  rw [Ask.run_attempt, addCoefficient, withCoefficient, Ask.run_discard_bind, run_column]
  cases l.usedVariable? v with
  | none => rfl
  | some column =>
    dsimp only [Option.elim_some]
    rw [Ask.run_discard_bind, run_row]
    cases l.usedRow? r <;> rfl

theorem releaseVariable_eq (v : VariableId) :
    (releaseVariable v : Ask (Ledger α) Unit) =
      Ask.attempt fun l => (l.withoutVariable v).map ((), ·) := by
  funext l
  change (releaseVariable v).run l = (Ask.attempt _).run l
  rw [Ask.run_attempt, releaseVariable, withoutVariable, Ask.run_discard_bind, run_column]
  cases l.usedVariable? v <;> rfl

theorem releaseRow_eq (r : RowId) :
    (releaseRow r : Ask (Ledger α) Unit) = Ask.attempt fun l => (l.withoutRow r).map ((), ·) := by
  funext l
  change (releaseRow r).run l = (Ask.attempt _).run l
  rw [Ask.run_attempt, releaseRow, withoutRow, Ask.run_discard_bind, run_row]
  cases l.usedRow? r <;> rfl

theorem submit_eq [Scalar α] (assignment : List (VariableId × α)) :
    submit assignment = Ask.attempt fun l => l.withSubmission assignment := by
  funext l
  change (submit assignment).run l = (Ask.attempt _).run l
  rw [Ask.run_attempt, submit, withSubmission, run_get_bind]
  cases l.value assignment with
  | error e => rfl
  | ok objective =>
    change (if !assignment.isEmpty && l.bestAccepted.all (objective < ·) then _ else _ :
      Ask (Ledger α) Bool).run l =
        (.ok (!assignment.isEmpty && l.bestAccepted.all (objective < ·)), _)
    dsimp only [bind, pure, Except.bind, Except.pure]
    generalize (!assignment.isEmpty && l.bestAccepted.all (objective < ·)) = accepted
    cases accepted <;> rfl

end Ledger

end TourPricing
