namespace TourPricing.CommandLine

/-- An option that a command knows. A flag takes no value. -/
structure OptionSpec where
  long : String
  short : Option Char := none
  takesValue : Bool := true
  accepts : String → Bool := fun _ => true

inductive Refusal where
  | usage
  | help
deriving DecidableEq

/-- Options that were given, by their long names, with their values. -/
abbrev Given := List (String × String)

/-- What the arguments so far have given, with the option whose value is the next argument. -/
structure Taken where
  given : Given := []
  awaiting : Option OptionSpec := none

/-- Takes in an option with its value. No option is given twice. -/
def OptionSpec.take (spec : OptionSpec) (given : Given) (value : String) : Except Refusal Given :=
  if (given.lookup spec.long).isSome || !spec.accepts value then .error .usage
  else .ok (given ++ [(spec.long, value)])

/-- Takes in a group of short options. An option with a value ends the group; it takes the rest, and
if nothing is left it waits for its value. -/
def shortGroup (specs : List OptionSpec) (given : Given) : List Char → Except Refusal Taken
  | [] => .ok { given }
  | c :: rest =>
    match specs.find? (·.short == some c) with
    | none => .error (if c = 'h' then .help else .usage)
    | some spec =>
      if spec.takesValue then
        match rest with
        | [] => .ok { given, awaiting := spec }
        | '=' :: value => do pure { given := ← spec.take given (String.ofList value) }
        | value => do pure { given := ← spec.take given (String.ofList value) }
      else do shortGroup specs (← spec.take given "") rest

def longOption (specs : List OptionSpec) (given : Given) (body : List Char) :
    Except Refusal Taken :=
  let name := String.ofList (body.takeWhile (· != '='))
  let value := (body.dropWhile (· != '=')).drop 1
  let valued := body.contains '='
  match specs.find? (·.long == name) with
  | none => .error (if name = "help" ∧ !valued then .help else .usage)
  | some spec =>
    if spec.takesValue && !valued then .ok { given, awaiting := spec }
    else if !spec.takesValue && valued then .error .usage
    else do pure { given := ← spec.take given (String.ofList value) }

def isValue (arg : String) : Bool :=
  arg.toList.head? != some '-' || arg == "-"

/-- Takes in one argument: the value that an option waits for, or options. -/
def Taken.argument (specs : List OptionSpec) (taken : Taken) (arg : String) :
    Except Refusal Taken :=
  match taken.awaiting with
  | some spec =>
    if isValue arg then do pure { given := ← spec.take taken.given arg } else .error .usage
  | none =>
    match arg.toList with
    | '-' :: '-' :: c :: body => longOption specs taken.given (c :: body)
    | '-' :: c :: body =>
      if c = '-' then .error .usage else shortGroup specs taken.given (c :: body)
    | _ => .error .usage

/-- The options that the arguments give. A last argument `--` only ends the options. -/
def options (specs : List OptionSpec) (args : List String) : Except Refusal Given := do
  let args := if args.getLast? = some "--" then args.dropLast else args
  let taken ← args.foldlM (Taken.argument specs) {}
  if taken.awaiting.isSome then throw .usage else pure taken.given

end TourPricing.CommandLine
