import TourPricing.Manager.Basic

namespace TourPricing

/-- When column generation stops. -/
structure ColumnGeneration (α : Type) where
  maxRounds : Nat
  /-- The relative gap between bound and objective at which they are taken to meet. -/
  gapTolerance : α

namespace ColumnGeneration

/-- Five hundred rounds at most, and a gap of a millionth. -/
def standard {α : Type} [Scalar α] : ColumnGeneration α :=
  ⟨500, Scalar.ofDecimal 1 6⟩

structure Report (α : Type) where
  rounds : Nat
  farkasRounds : Nat
  /-- How many variables were added. -/
  columns : Nat
  /-- The objective of the relaxation when it was last feasible. -/
  objective : Option α
  lowerBound : Option α
  incumbent : Option α
  infeasible : Bool
  converged : Bool

def Report.blank {α : Type} : Report α :=
  ⟨0, 0, 0, none, none, none, false, false⟩

variable {M α : Type} [Scalar α] [Master M α]

def meets (C : ColumnGeneration α) (objective bound : Option α) : Bool :=
  match objective, bound with
  | some z, some b => z - C.gapTolerance * Scalar.magnitude z ≤ b
  | _, _ => false

/-- Solves and prices the master once. The report after it, and how many variables were added. -/
def round (report : Report α) : Manager.Call M α (Report α × Nat) := do
  let status ← Manager.reoptimize
  let report := { report with rounds := report.rounds + 1 }
  match status with
  | .infeasible =>
    let report := { report with infeasible := true, farkasRounds := report.farkasRounds + 1 }
    let outcome ← Manager.farkasPricing
    pure ({ report with columns := report.columns + outcome.newVariables }, outcome.newVariables)
  | .optimal =>
    let objective ← Manager.ask Master.objective
    let report := { report with infeasible := false, objective := some objective }
    let outcome ← Manager.reducedCostPricing
    pure ({ report with columns := report.columns + outcome.newVariables }, outcome.newVariables)

/-- At most `rounds` more rounds. -/
def rounds (C : ColumnGeneration α) : (rounds : Nat) → Report α → Manager.Call M α (Report α)
  | 0, report => pure report
  | n + 1, report => do
    let (report, added) ← round report
    if added = 0 then pure report
    else if C.meets report.objective (← get).bestBound then pure { report with converged := true }
    else C.rounds n report

def run (C : ColumnGeneration α) : Manager.Call M α (Report α) := do
  let report ← C.rounds C.maxRounds .blank
  let m ← get
  pure { report with
    converged := report.converged || C.meets report.objective m.bestBound
    lowerBound := m.bestBound
    incumbent := m.incumbent }

end ColumnGeneration

end TourPricing
