import TourPricing.Pricing.Round

namespace TourPricing

structure VariableId where
  index : Nat
deriving DecidableEq, Inhabited

/-- A row of the master, which is an equation. -/
structure RowId where
  index : Nat
deriving DecidableEq, Inhabited

inductive MasterError where
  | unknownVariable (id : VariableId)
  | unknownRow (id : RowId)
  | refused (reason : String)
  | missingLinkingRow (edge : Nat)
  | dualsUnavailable (reason : String)
deriving DecidableEq

def MasterError.message : MasterError → String
  | .unknownVariable v => s!"master LP backend failure: unknown variable VarId({v.index})"
  | .unknownRow r => s!"master LP backend failure: unknown constraint ConsId({r.index})"
  | .refused reason => "master LP backend failure: " ++ reason
  | .missingLinkingRow e => s!"no linking constraint for edge {e}"
  | .dualsUnavailable reason => "dual values unavailable: " ++ reason

inductive Domain where
  | binary
  | continuous
deriving DecidableEq, Inhabited

inductive LpStatus where
  | optimal
  | infeasible
deriving DecidableEq, Inhabited

/-- A request to a master of type `M`. Its state is kept also when the request fails. -/
abbrev Ask (M : Type) := ExceptT MasterError (StateM M)

/-- What a type has to offer to serve as the master, with numbers of type `α`. -/
class Master (M : Type) (α : outParam Type) where
  duals : CostKind → Ask M (Duals α)
  objective : Ask M α
  /-- The edges that may not be used at present. -/
  forbidden : M → List Nat
  window : M → TimeWindow
  /-- The row that counts the use of an edge. -/
  linkingRow : (edge : Nat) → Ask M RowId
  addVariable : (name : String) → (objective : α) → Domain → Ask M VariableId
  addRow : (name : String) → (rhs : α) → Ask M RowId
  addCoefficient : RowId → VariableId → α → Ask M Unit
  /-- Offers a solution, in which variables that are not listed are zero. -/
  submit : List (VariableId × α) → Ask M Bool
  releaseVariable : VariableId → Ask M Unit
  releaseRow : RowId → Ask M Unit
  reoptimize : Ask M LpStatus

/-- The state of a master for a pricing round. Its objective is only asked for where it matters. -/
def Round.ofMaster {M α : Type} [Scalar α] [Master M α] (kind : CostKind)
    (incumbent bestBound : Option α) : Ask M (Round α) := do
  let duals ← Master.duals kind
  let objective ← match kind with
    | .reduced => Master.objective
    | .farkas => pure (Scalar.ofNat 0)
  let master ← get
  pure
    { kind, duals, objective, incumbent, bestBound
      forbidden := Master.forbidden master, window := Master.window master }

end TourPricing
