import TourPricing.Manager.Error
import TourPricing.Pricing.Pricer

namespace TourPricing

structure PricingOutcome (α : Type) where
  newVariables : Nat
  lowerBound : Option α
  /-- Whether the pricer found anything, new or not. -/
  foundColumns : Bool

/-- A master, a pricer, and the part of the flow model that was added so far. -/
structure Manager (M α : Type) where
  master : M
  expansion : Expansion
  pricer : Pricer α
  /-- The tour that the first search for feasibility puts into the master. -/
  initialTour : List Nat
  relaxed : Bool
  phase : Phase
  linking : List RowId
  flow : List (Stop × RowId)
  /-- The variables of the legs that have one. -/
  columns : List (Leg × VariableId)
  seeded : Bool
  /-- The value of the best solution that the master accepted. -/
  incumbent : Option α
  bestBound : Option α

/-- The legs of a tour that starts at time zero, as far as it keeps to the horizon. -/
def Expansion.traceFrom (E : Expansion) : (time : Nat) → List Edge → Except Untraceable (List Leg)
  | _, [] => .ok []
  | time, e :: rest =>
    match e.departAt? time with
    | none => .error (.timeOverflow e.target)
    | some leg =>
      if E.horizon < leg.head.time then .error (.late leg.head.time leg.head.vertex E.horizon)
      else return leg :: (← E.traceFrom leg.head.time rest)

def Expansion.trace (E : Expansion) (vertices : List Nat) : Except Untraceable Route := do
  let edges ← E.network.tourEdges vertices
  pure ⟨← E.traceFrom 0 edges⟩

namespace Manager

variable {M α : Type}

/-- A manager that has not taken up the master yet. -/
def create (master : M) (expansion : Expansion) (pricer : Pricer α) (initialTour : List Nat)
    (relaxed : Bool) : Manager M α :=
  { master, expansion, pricer, initialTour, relaxed, phase := .uninitialized, linking := []
    flow := [], columns := [], seeded := false, incumbent := none, bestBound := none }

/-- A call to a manager. Its state is kept also when the call fails. -/
abbrev Call (M α : Type) := ExceptT (PricingError α) (StateM (Manager M α))

def ask {β : Type} (request : Ask M β) : Call M α β :=
  ExceptT.mk fun m =>
    let (result, master) := request.run m.master
    (result.mapError .master, { m with master })

def ensureActive : Call M α Unit := do
  let m ← get
  if m.phase ≠ .active then throw (.invalidState m.phase)

def variableOf? (m : Manager M α) (leg : Leg) : Option VariableId :=
  m.columns.lookup leg

def variableCount (m : Manager M α) : Nat :=
  m.columns.length

def flowCount (m : Manager M α) : Nat :=
  m.flow.length

variable [Scalar α] [Master M α]

/-- Takes up the linking rows of the master. -/
def init : Call M α Unit := do
  let m ← get
  if m.phase ≠ .uninitialized then throw (.invalidState m.phase)
  let rows ← (List.range m.expansion.network.edgeCount).mapM fun e => ask (Master.linkingRow e)
  modify ({ · with linking := rows, phase := .active })

/-- Gives up every variable and every flow row. A table is empty from the moment that its entries
are being released. -/
def exit : Call M α Unit := do
  ensureActive
  let columns := (← get).columns
  modify ({ · with columns := [] })
  columns.forM fun (_, v) => ask (Master.releaseVariable v)
  let flow := (← get).flow
  modify ({ · with flow := [] })
  flow.forM fun (_, r) => ask (Master.releaseRow r)
  modify ({ · with linking := [], phase := .tornDown })

/-- The row of a stop, added if there is none. -/
def flowRow (s : Stop) : Call M α RowId := do
  match (← get).flow.lookup s with
  | some r => pure r
  | none =>
    let r ← ask (Master.addRow s!"flow_{s.vertex}_{s.time}" (Scalar.ofNat 0))
    modify fun m => { m with flow := m.flow ++ [(s, r)] }
    pure r

/-- The row of a stop that is not at the source. -/
def flowRow? (s : Stop) : Call M α (Option RowId) := do
  if s.vertex = (← get).expansion.network.source then pure none else some <$> flowRow s

/-- Enters the coefficients of a variable: out of its tail, into its head, one use of its edge. -/
def enterColumn (v : VariableId) (tail head : Option RowId) (link : RowId) : Ask M Unit := do
  if let some r := tail then Master.addCoefficient r v (Scalar.ofNat 1)
  if let some r := head then Master.addCoefficient r v (-Scalar.ofNat 1)
  Master.addCoefficient link v (Scalar.ofNat 1)

/-- The variable of a leg, added with its rows if there is none. A variable whose coefficients are
refused is given up again. -/
def materialize (leg : Leg) : Call M α VariableId := do
  ensureActive
  match (← get).variableOf? leg with
  | some v => pure v
  | none =>
    let tail ← flowRow? leg.tail
    let head ← flowRow? leg.head
    let some link := (← get).linking[leg.edge]?
      | throw (.master (.missingLinkingRow leg.edge))
    let domain := if (← get).relaxed then .continuous else .binary
    let name := s!"x_{leg.edge}_{leg.tail.time}"
    let some time := leg.travelTime? | throw .timeOverflow
    let v ← ask (Master.addVariable name (Scalar.ofNat time) domain)
    try ask (enterColumn v tail head link)
    catch e =>
      ask (Master.releaseVariable v)
      throw e
    modify fun m => { m with columns := m.columns ++ [(leg, v)] }
    pure v

/-- Adds the legs of a route. A route that is a tour is offered to the master as a solution. -/
def addRoute (r : Route) : Call M α Bool := do
  ensureActive
  let used ← r.legs.mapM materialize
  match r.isTour? (← get).expansion.network with
  | none => throw .unknownVertex
  | some false => pure false
  | some true =>
    let accepted ← ask (Master.submit (used.map fun v => (v, Scalar.ofNat 1)))
    if accepted then
      let some time := r.travelTime? | throw .timeOverflow
      let value : α := Scalar.ofNat time
      modify fun m =>
        if m.incumbent.all (value < ·) then { m with incumbent := some value } else m
    pure accepted

def trace (vertices : List Nat) : Call M α Route := do
  match (← get).expansion.trace vertices with
  | .ok r => pure r
  | .error reason => throw (.untraceable reason)

def addTour (vertices : List Nat) : Call M α Bool := do
  ensureActive
  addRoute (← trace vertices)

def price (kind : CostKind) : Call M α (PricingOutcome α) := do
  let before ← get
  let round ← ask (Round.ofMaster kind before.incumbent before.bestBound)
  let (result, pricer) := before.pricer.price before.expansion round
  modify ({ · with pricer })
  match result with
  | .error c => throw (.inconsistentBound c.bound c.incumbent)
  | .ok found =>
    found.legs.forM fun leg => discard (materialize leg)
    found.routes.forM fun r => discard (addRoute r)
    pure ⟨(← get).variableCount - before.variableCount, found.lowerBound, !found.isEmpty⟩

/-- Prices an infeasible master. The first call that succeeds adds the initial tour instead. -/
def farkasPricing : Call M α (PricingOutcome α) := do
  ensureActive
  let m ← get
  if m.seeded then price .farkas
  else
    discard (addTour m.initialTour)
    modify ({ · with seeded := true })
    pure ⟨(← get).variableCount - m.variableCount, none, true⟩

/-- Prices a feasible master, and keeps the best bound. -/
def reducedCostPricing : Call M α (PricingOutcome α) := do
  ensureActive
  let outcome ← price .reduced
  if let some bound := outcome.lowerBound then
    modify fun m => if m.bestBound.all (· < bound) then { m with bestBound := some bound } else m
  pure outcome

def reoptimize : Call M α LpStatus :=
  ask Master.reoptimize

end Manager

end TourPricing
