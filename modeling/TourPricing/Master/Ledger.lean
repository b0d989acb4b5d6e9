import TourPricing.Master.Basic

namespace TourPricing

/-- A variable; a released one is no longer in use. -/
structure VariableRecord (α : Type) where
  name : String
  objective : α
  domain : Domain
  released : Bool

structure RowRecord (α : Type) where
  name : String
  rhs : α
  coefficients : List (VariableId × α)
  released : Bool

structure Submission (α : Type) where
  assignment : List (VariableId × α)
  objective : α
  accepted : Bool

/-- The record. The rows of the edges come first. -/
structure Ledger (α : Type) where
  /-- The variables in the order in which they were added, given up or not. -/
  columns : Array (VariableRecord α)
  rows : Array (RowRecord α)
  linkingCount : Nat
  duals : Duals α
  farkasDuals : Duals α
  /-- Forbidden edges, in order and without repetition. -/
  forbidden : List Nat
  window : TimeWindow
  objective : α
  submissions : Array (Submission α)
  bestAccepted : Option α

/-- New values for some of the settings of a ledger. -/
structure LedgerSettings (α : Type) where
  duals : Option (Duals α) := none
  farkasDuals : Option (Duals α) := none
  objective : Option α := none
  window : Option TimeWindow := none
  forbid : List Nat := []

namespace Ledger

variable {α : Type} [Scalar α]

def withEdges (n : Nat) : Ledger α :=
  { columns := #[]
    rows := ((List.range n).map fun e => ⟨s!"link_{e}", Scalar.ofNat 0, [], false⟩).toArray
    linkingCount := n
    duals := .zeros n
    farkasDuals := .zeros n
    forbidden := []
    window := {}
    objective := Scalar.ofNat 0
    submissions := #[]
    bestAccepted := none }

def ofNetwork (N : Network) : Ledger α :=
  { withEdges N.edgeCount with window := ⟨N.lowerBound, some N.horizon⟩ }

def insertSorted (e : Nat) : List Nat → List Nat
  | [] => [e]
  | f :: rest =>
    if e < f then e :: f :: rest
    else if e = f then f :: rest
    else f :: insertSorted e rest

def apply (l : Ledger α) (s : LedgerSettings α) : Ledger α :=
  { l with
    duals := s.duals.getD l.duals
    farkasDuals := s.farkasDuals.getD l.farkasDuals
    objective := s.objective.getD l.objective
    window := s.window.getD l.window
    forbidden := s.forbid.foldl (fun known e => insertSorted e known) l.forbidden }

def usedVariable? (l : Ledger α) (v : VariableId) : Option (VariableRecord α) :=
  l.columns[v.index]?.filter (!·.released)

def usedRow? (l : Ledger α) (r : RowId) : Option (RowRecord α) :=
  l.rows[r.index]?.filter (!·.released)

def variableCount (l : Ledger α) : Nat :=
  l.columns.countP (!·.released)

def rowCount (l : Ledger α) : Nat :=
  l.rows.countP (!·.released)

def coefficientCount (l : Ledger α) : Nat :=
  total (l.rows.toList.map (·.coefficients.length))

def addVariable (l : Ledger α) (name : String) (objective : α) (domain : Domain) :
    VariableId × Ledger α :=
  (⟨l.columns.size⟩, { l with columns := l.columns.push ⟨name, objective, domain, false⟩ })

def addRow (l : Ledger α) (name : String) (rhs : α) : RowId × Ledger α :=
  (⟨l.rows.size⟩, { l with rows := l.rows.push ⟨name, rhs, [], false⟩ })

/-- The record of a variable in use. -/
def column (v : VariableId) : Ask (Ledger α) (VariableRecord α) := do
  match (← get).usedVariable? v with
  | some record => pure record
  | none => throw (.unknownVariable v)

/-- The record of a row in use. -/
def row (r : RowId) : Ask (Ledger α) (RowRecord α) := do
  match (← get).usedRow? r with
  | some record => pure record
  | none => throw (.unknownRow r)

def addCoefficient (r : RowId) (v : VariableId) (a : α) : Ask (Ledger α) Unit := do
  discard (column v)
  discard (row r)
  modify fun l => { l with
    rows := l.rows.modify r.index fun row =>
      { row with coefficients := row.coefficients ++ [(v, a)] } }

def value (l : Ledger α) (assignment : List (VariableId × α)) : Except MasterError α :=
  assignment.foldlM (fun total (v, a) =>
    match l.usedVariable? v with
    | some record => .ok (total + record.objective * a)
    | none => .error (.unknownVariable v)) (Scalar.ofNat 0)

/-- Records an offered solution. It is accepted if it assigns something and is better than all
accepted ones. -/
def submit (assignment : List (VariableId × α)) : Ask (Ledger α) Bool := do
  let objective ← MonadExcept.ofExcept ((← get).value assignment)
  let accepted := !assignment.isEmpty && (← get).bestAccepted.all (objective < ·)
  if accepted then modify ({ · with bestAccepted := some objective })
  modify fun l => { l with submissions := l.submissions.push ⟨assignment, objective, accepted⟩ }
  pure accepted

/-- Gives up a variable, and its coefficients with it. -/
def releaseVariable (v : VariableId) : Ask (Ledger α) Unit := do
  discard (column v)
  modify fun l => { l with columns := l.columns.modify v.index ({ · with released := true }) }
  modify fun l => { l with
    rows := l.rows.map fun row =>
      { row with coefficients := row.coefficients.filter fun c => c.1 != v } }

/-- Gives up a row; its coefficients stay on record. -/
def releaseRow (r : RowId) : Ask (Ledger α) Unit := do
  discard (row r)
  modify fun l => { l with rows := l.rows.modify r.index ({ · with released := true }) }

/-- Without a variable in use there is no solution. -/
def status (l : Ledger α) : LpStatus :=
  if l.variableCount = 0 then .infeasible else .optimal

instance : Master (Ledger α) α where
  duals kind := do
    let l ← get
    pure (match kind with
      | .reduced => l.duals
      | .farkas => l.farkasDuals)
  objective := do pure (← get).objective
  forbidden l := l.forbidden
  window l := l.window
  linkingRow e := do
    if e < (← get).linkingCount then pure ⟨e⟩ else throw (.missingLinkingRow e)
  addVariable name objective domain := modifyGet fun l => l.addVariable name objective domain
  addRow name rhs := modifyGet fun l => l.addRow name rhs
  addCoefficient := addCoefficient
  submit := submit
  releaseVariable := releaseVariable
  releaseRow := releaseRow
  reoptimize := do pure (← get).status

end Ledger

end TourPricing
