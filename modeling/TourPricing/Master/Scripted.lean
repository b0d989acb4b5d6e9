import TourPricing.Master.Ledger

namespace TourPricing

inductive Request where
  | duals
  | objective
  | linkingRow
  | addVariable
  | addRow
  | addCoefficient
  | submit
  | releaseVariable
  | releaseRow
  | reoptimize
deriving DecidableEq, Inhabited

/-- What happens when the relaxation is solved again: settings change, the status may be given. -/
structure SolveStep (α : Type) where
  settings : LedgerSettings α
  status : Option LpStatus

structure MasterScript (α : Type) where
  /-- Whether the request of a sort with a number is refused. -/
  refuses : Request → Nat → Bool
  reason : Request → String
  schedule : List (SolveStep α)

/-- A ledger with its script and with how far the script was followed. -/
structure ScriptedMaster (α : Type) where
  ledger : Ledger α
  script : MasterScript α
  /-- How many requests of a sort there were, for the sorts that there were any of. -/
  counts : List (Request × Nat)
  solved : Nat

namespace ScriptedMaster

variable {α : Type} [Scalar α]

def start (ledger : Ledger α) (script : MasterScript α) : ScriptedMaster α :=
  ⟨ledger, script, [], 0⟩

def count (m : ScriptedMaster α) (r : Request) : Nat :=
  (m.counts.lookup r).getD 0

def refusal (m : ScriptedMaster α) (r : Request) : MasterError :=
  match r with
  | .duals => .dualsUnavailable (m.script.reason r)
  | _ => .refused (m.script.reason r)

/-- Counts a request, and passes it on to the ledger unless it is refused. -/
def pass {β : Type} (r : Request) (request : Ask (Ledger α) β) : Ask (ScriptedMaster α) β :=
  ExceptT.mk fun m =>
    let n := m.count r + 1
    let m := { m with counts := (r, n) :: m.counts.filter (·.1 != r) }
    if m.script.refuses r n then (.error (m.refusal r), m)
    else
      let (result, ledger) := request.run m.ledger
      (result, { m with ledger })

def solve (m : ScriptedMaster α) : LpStatus × ScriptedMaster α :=
  let m := { m with solved := m.solved + 1 }
  match m.script.schedule[m.solved - 1]? with
  | none => (m.ledger.status, m)
  | some step =>
    let ledger := m.ledger.apply step.settings
    (step.status.getD ledger.status, { m with ledger })

instance : Master (ScriptedMaster α) α where
  duals kind := pass .duals (Master.duals kind)
  objective := pass .objective Master.objective
  forbidden m := m.ledger.forbidden
  window m := m.ledger.window
  linkingRow e := pass .linkingRow (Master.linkingRow e)
  addVariable name objective domain := pass .addVariable (Master.addVariable name objective domain)
  addRow name rhs := pass .addRow (Master.addRow name rhs)
  addCoefficient r v a := pass .addCoefficient (Master.addCoefficient r v a)
  submit assignment := pass .submit (Master.submit assignment)
  releaseVariable v := pass .releaseVariable (Master.releaseVariable v)
  releaseRow r := pass .releaseRow (Master.releaseRow r)
  reoptimize := do
    pass .reoptimize (pure ())
    modifyGet solve

end ScriptedMaster

end TourPricing
