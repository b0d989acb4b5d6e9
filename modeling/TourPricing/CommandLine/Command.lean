import TourPricing.CommandLine.Options
import TourPricing.Decimal.Reader
import TourPricing.Pricing.Pricer

namespace TourPricing.CommandLine

structure AnalyzeCommand where
  network : String
  horizon : Option Nat

structure ConstructCommand where
  network : String
  seed : Nat
  randomized : Bool
  horizon : Option Nat
  output : Option String

structure PriceCommand where
  network : String
  duals : Option String
  objective : Float
  pricer : PricerKind
  restriction : Restriction
  farkas : Bool
  config : Option String
  horizon : Option Nat
  output : Option String

structure SolveCommand where
  network : String
  pricer : PricerKind
  restriction : Restriction
  config : Option String
  maxRounds : Nat
  timeLimit : Float
  horizon : Option Nat
  output : Option String
  verbose : Bool

inductive Command where
  | version
  | analyze (c : AnalyzeCommand)
  | construct (c : ConstructCommand)
  | price (c : PriceCommand)
  | solve (c : SolveCommand)

/-- A value of an option in the form that the option needs. -/
abbrev ValueReader (α : Type) := String → Option α

def path : ValueReader String := fun s =>
  if s.isEmpty then none else some s

/-- Times have 32 bits. -/
def time : ValueReader Nat := fun s =>
  (Decimal.readInt s.toList).bind fun t =>
    if 0 ≤ t ∧ t.toNat < timeLimit then some t.toNat else none

/-- Seeds and counts have 64 bits. -/
def word64 : ValueReader Nat := fun s =>
  Decimal.readNat (Nat.pow 2 64) s.toList

def number : ValueReader Float := fun s =>
  Decimal.readFloat s.toList

def pricerKind : ValueReader PricerKind
  | "path" => some .path
  | "edge" => some .edge
  | "stabilized" => some .stabilized
  | _ => none

def restriction (lookback : Nat) : ValueReader Restriction
  | "acyclic" => some (.acyclic lookback)
  | "hole-free" => some .holeFree
  | "two-cycle-free" => some .twoCycleFree
  | _ => none

section

variable {α : Type} (given : Given) (name : String) (read : ValueReader α)

def optional : Except Refusal (Option α) :=
  match given.lookup name with
  | none => .ok none
  | some text =>
    match read text with
    | some a => .ok (some a)
    | none => .error .usage

def required : Except Refusal α := do
  match ← optional given name read with
  | some a => pure a
  | none => throw .usage

def valueOr (default : α) : Except Refusal α := do
  pure ((← optional given name read).getD default)

end

def hasFlag (given : Given) (name : String) : Bool :=
  (given.lookup name).isSome

def valued {α : Type} (long : String) (short : Option Char) (read : ValueReader α) : OptionSpec :=
  { long, short, accepts := fun text => (read text).isSome }

def flag (long : String) (short : Option Char) : OptionSpec :=
  { long, short, takesValue := false }

def commonOptions : List OptionSpec :=
  [valued "instance" (some 'i') path, valued "horizon" none time]

def outputOption : OptionSpec := valued "output" (some 'o') path

def pricerOptions : List OptionSpec :=
  [valued "pricer" (some 'p') pricerKind, valued "restriction" (some 'r') (restriction 0),
    valued "config" (some 'c') path]

def readAnalyze (args : List String) : Except Refusal AnalyzeCommand := do
  let given ← options commonOptions args
  pure
    { network := ← required given "instance" path
      horizon := ← optional given "horizon" time }

def readConstruct (args : List String) : Except Refusal ConstructCommand := do
  let given ← options (commonOptions ++ [outputOption, valued "seed" (some 's') word64,
    flag "randomized" none]) args
  pure
    { network := ← required given "instance" path
      seed := ← valueOr given "seed" word64 42
      randomized := hasFlag given "randomized"
      horizon := ← optional given "horizon" time
      output := ← optional given "output" path }

def readPrice (args : List String) : Except Refusal PriceCommand := do
  let given ← options (commonOptions ++ pricerOptions ++ [outputOption,
    valued "duals" (some 'd') path, valued "objective" none number, valued "lookback" none word64,
    flag "farkas" none]) args
  let lookback ← valueOr given "lookback" word64 3
  pure
    { network := ← required given "instance" path
      duals := ← optional given "duals" path
      objective := ← valueOr given "objective" number 0
      pricer := ← valueOr given "pricer" pricerKind .path
      restriction := ← valueOr given "restriction" (restriction lookback) (.acyclic lookback)
      farkas := hasFlag given "farkas"
      config := ← optional given "config" path
      horizon := ← optional given "horizon" time
      output := ← optional given "output" path }

def readSolve (args : List String) : Except Refusal SolveCommand := do
  let given ← options (commonOptions ++ pricerOptions ++ [outputOption,
    valued "max-rounds" none word64, valued "time-limit" (some 't') number,
    flag "verbose" (some 'v')]) args
  pure
    { network := ← required given "instance" path
      pricer := ← valueOr given "pricer" pricerKind .stabilized
      restriction := ← valueOr given "restriction" (restriction 3) (.acyclic 3)
      config := ← optional given "config" path
      maxRounds := ← valueOr given "max-rounds" word64 500
      timeLimit := ← valueOr given "time-limit" number 60
      horizon := ← optional given "horizon" time
      output := ← optional given "output" path
      verbose := hasFlag given "verbose" }

/-- What the words after `help` ask for: help with the program, or with one command of it. -/
def helpTopic (topics : List String) : Refusal :=
  match topics with
  | [] => .help
  | [topic] =>
    if ["analyze", "construct", "price", "solve", "help"].contains topic then .help else .usage
  | _ => .usage

/-- The command that the arguments stand for. Short options of the program may be joined, but the
first one ends the run. -/
def Command.read : List String → Except Refusal Command
  | "analyze" :: args => (readAnalyze args).map .analyze
  | "construct" :: args => (readConstruct args).map .construct
  | "price" :: args => (readPrice args).map .price
  | "solve" :: args => (readSolve args).map .solve
  | "help" :: topics => .error (helpTopic topics)
  | "--version" :: _ => .ok .version
  | "--help" :: _ => .error .help
  | arg :: _ =>
    match arg.toList with
    | '-' :: 'V' :: _ => .ok .version
    | '-' :: 'h' :: _ => .error .help
    | _ => .error .usage
  | [] => .error .usage

end TourPricing.CommandLine
