import TourPricing.ColumnGeneration.Report
import TourPricing.CommandLine.Command
import TourPricing.Json.Printer
import TourPricing.Master.Ledger
import TourPricing.Network.Reader
import TourPricing.Network.Statistics
import TourPricing.Pricing.Json
import TourPricing.Text.Quoted
import TourPricing.Tour.Construction
import TourPricing.Tour.Report

namespace TourPricing.CommandLine

/-- Files and output streams. Failures to read or to write come with the text of the system. -/
class Console (m : Type → Type) where
  load : (path : String) → m (Except String String)
  save : (path text : String) → m (Except String Unit)
  out : String → m Unit
  err : String → m Unit

/-- A run that may end early with an exit code. -/
abbrev Program (m : Type → Type) := ExceptT Nat m

variable {m : Type → Type} [Monad m] [Console m]

def say (text : String) : Program m Unit :=
  ExceptT.lift (Console.out (text ++ "\n"))

def complain (text : String) : Program m Unit :=
  ExceptT.lift (Console.err (text ++ "\n"))

def fail {β : Type} (text : String) : Program m β := do
  complain text
  throw 1

/-- What is not there ends the run at once. -/
def require {β : Type} : Option β → Program m β
  | some b => pure b
  | none => throw 101

def load (path : String) : Program m (Except String String) :=
  ExceptT.lift (Console.load path)

/-- The network in a file, with the horizon replaced if one is given. -/
def loadNetwork (path : String) (horizon : Option Nat) : Program m Network := do
  match ← load path with
  | .error reason => fail ("Error loading instance: Cannot open file: " ++ reason)
  | .ok text =>
    match Network.parse text with
    | .error .timeOverflow => throw 101
    | .error e => fail ("Error loading instance: " ++ e.message)
    | .ok N => pure { N with horizon := horizon.getD N.horizon }

/-- The settings in a file, or the standard ones, under the given restriction. -/
def loadConfig (path : Option String) (restriction : Restriction) :
    Program m (PricingConfig Float) := do
  let config ← match path with
    | none => pure .standard
    | some path => do
      match ← load path with
      | .error reason =>
        fail s!"Error loading configuration: Failed to read {Text.quote path}: {reason}"
      | .ok text =>
        match PricingConfig.parse? text with
        | some config => pure config
        | none =>
          fail "Error loading configuration: Invalid pricing configuration: unexpected content"
  pure { config with path := { config.path with restriction } }

def loadDuals (path : String) (edgeCount : Nat) : Program m (Duals Float) := do
  match ← load path with
  | .error reason => fail ("Error reading duals: " ++ reason)
  | .ok text =>
    match (Json.parse? text).bind Duals.ofJson? with
    | none => fail "Error parsing duals: unexpected content"
    | some duals =>
      if duals.values.length = edgeCount then pure duals
      else fail s!"Expected {edgeCount} dual values, got {duals.values.length}"

def writeJson (path : String) (j : Json) : Program m Unit := do
  match ← ExceptT.lift (Console.save path j.pretty) with
  | .ok () => say s!"Written to {Text.quote path}"
  | .error reason => complain ("Failed to write output: " ++ reason)

def analyze (c : AnalyzeCommand) : Program m Unit := do
  let N ← loadNetwork c.network c.horizon
  say "========== Instance Analysis ==========\n"
  say N.statistics.report
  let E ← require (Expansion.build? N N.horizon)
  let reached := (List.range N.dimension).countP fun v => !(E.departures v).isEmpty
  say "\nTime Expansion:"
  say s!"  Horizon: {E.horizon}"
  say s!"  Timed vertices: {E.stopCount}"
  say s!"  Timed edges: {E.legCount}"
  say s!"  Reachable vertices: {reached}/{N.dimension}"
  let nearest ← require (NearestNeighbor.deterministic.construct? N)
  let best ← require (MultiStart.standard.construct? N)
  say "\nQuick Solution Estimates:"
  say s!"  Nearest Neighbor: {nearest.costText} (feasible: {nearest.feasible})"
  say s!"  Multi-Start: {best.costText} (feasible: {best.feasible})"

def construct (c : ConstructCommand) : Program m Unit := do
  let N ← loadNetwork c.network c.horizon
  let tour ← require <|
    if c.randomized then (MultiStart.seeded c.seed.toUInt64 16).construct? N
    else NearestNeighbor.deterministic.construct? N
  say tour.report
  if let some path := c.output then writeJson path tour.toJson

/-- The call that a pricing command makes: the initial tour is added, then one round is priced. -/
def pricingCall (farkas : Bool) : Manager.Call (Ledger Float) Float (PricingOutcome Float) := do
  Manager.init
  discard Manager.farkasPricing
  if farkas then Manager.farkasPricing else Manager.reducedCostPricing

def price (c : PriceCommand) : Program m Unit := do
  let config ← loadConfig c.config c.restriction
  let N ← loadNetwork c.network c.horizon
  let duals ← match c.duals with
    | some path => loadDuals path N.edgeCount
    | none => pure (.zeros N.edgeCount)
  let initial ← require (MultiStart.standard.construct? N)
  if !initial.feasible then fail s!"No feasible initial tour for {N.name}"
  let ledger : Ledger Float := { Ledger.ofNetwork N with objective := c.objective }
  let ledger := if c.farkas then { ledger with farkasDuals := duals } else { ledger with duals }
  let E ← require (Expansion.build? N N.horizon)
  let manager := Manager.create ledger E (Pricer.build c.pricer config) initial.vertices
    config.relaxed
  let (outcome, manager) := (pricingCall c.farkas).run manager
  match outcome with
  | .error e => fail ("Pricing failed: " ++ e.text)
  | .ok outcome =>
    let sort := if c.farkas then "Farkas" else "reduced cost"
    say s!"Pricing round ({c.pricer.name}, {sort})"
    say s!"  New variables: {outcome.newVariables}"
    say s!"  Lower bound: {ColumnGeneration.figure outcome.lowerBound}"
    say s!"  Variables: {manager.variableCount}"
    say s!"  Flow constraints: {manager.flowCount}"
    if let some path := c.output then
      writeJson path (.object [("instance", .text N.name), ("pricer", .text c.pricer.name),
        ("farkas", .bool c.farkas), ("new_variables", .nat outcome.newVariables),
        ("found_columns", .bool outcome.foundColumns),
        ("lower_bound", .option .float outcome.lowerBound),
        ("variables", .nat manager.variableCount), ("flow_constraints", .nat manager.flowCount),
        ("coefficients", .nat manager.master.coefficientCount)])

/-- Solving needs a linear programming solver, which the program does not have. -/
def solve (c : SolveCommand) : Program m Unit := do
  discard (loadConfig c.config c.restriction)
  let N ← loadNetwork c.network c.horizon
  say s!"Solving {N.name} ({N.dimension} vertices, horizon {N.horizon})"
  fail "Solve failed: Gurobi feature not enabled in this build"

def usage : String :=
  "Usage: tc-tsp-solver <analyze|construct|price|solve> --instance <INSTANCE> [OPTIONS]"

def run (args : List String) : m Nat := do
  let program : Program m Unit := match Command.read args with
    | .error .usage => do
      complain usage
      throw 2
    | .error .help => say usage
    | .ok .version => say "tc-tsp-solver 1.0"
    | .ok (.analyze c) => analyze c
    | .ok (.construct c) => construct c
    | .ok (.price c) => price c
    | .ok (.solve c) => solve c
  match ← program.run with
  | .ok () => pure 0
  | .error code => pure code

end TourPricing.CommandLine
