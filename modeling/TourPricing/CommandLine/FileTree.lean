namespace TourPricing.CommandLine

inductive PathFault where
  /-- A step leads nowhere. -/
  | missing
  /-- The path goes on behind a file. -/
  | throughFile
  /-- The path leads to a directory. -/
  | directory
  | tooLong
  | full
  /-- Behind a device there is nothing that could answer. -/
  | detached
deriving DecidableEq

/-- The text of a fault, with the number that systems give it. -/
def PathFault.message : PathFault → String
  | .missing => "No such file or directory (os error 2)"
  | .throughFile => "Not a directory (os error 20)"
  | .directory => "Is a directory (os error 21)"
  | .tooLong => "File name too long (os error 36)"
  | .full => "No space left on device (os error 28)"
  | .detached => "No such device or address (os error 6)"

/-- A place in a tree of directories, by the names that lead to it from the root. -/
abbrev Place := List String

/-- What stands at a place without being kept there: text that is written to it goes elsewhere. -/
inductive Device where
  | null
  | full
  | out
  | err
  /-- A terminal where none is in use. -/
  | terminal
deriving DecidableEq

inductive Entry where
  | directory
  | file (text : String)
  | device (device : Device)

inductive Target where
  | file (place : Place)
  | device (device : Device)

/-- A tree of directories with files and devices. Paths that do not start at the root start at
`home`. -/
structure FileTree where
  home : Place
  /-- Directories that are there without anything in them. -/
  directories : List Place
  devices : List (Place × Device)
  links : List (Place × Place)
  /-- Directories in and below which no file can be made. -/
  closed : List Place
  files : List (Place × String)

/-- The names in a path; empty ones are no steps. -/
def pathSteps (path : String) : List String :=
  (path.splitOn "/").filter (· != "")

namespace FileTree

variable (tree : FileTree)

def startOf (path : String) : Place :=
  if path.startsWith "/" then [] else tree.home

/-- What stands at a place. The root and all directories above a file or a device are there. -/
def entry? (place : Place) : Option Entry :=
  match tree.files.lookup place, tree.devices.lookup place with
  | some text, _ => some (.file text)
  | none, some device => some (.device device)
  | none, none =>
    let occupied := tree.directories ++ tree.devices.map (·.1) ++ tree.files.map (·.1)
    if place.isEmpty || occupied.any (place.isPrefixOf ·) then some .directory else none

/-- Fails unless a step can be taken from a place, which has to be a directory. -/
def ensureDirectory (place : Place) : Except PathFault Unit :=
  match tree.entry? place with
  | some .directory => .ok ()
  | some _ => .error .throughFile
  | none => .error .missing

def isClosed (place : Place) : Bool :=
  tree.closed.any (·.isPrefixOf place)

/-- The place to which a step leads. A name has at most 255 bytes, and a longer one is refused where
names can be made; above the root is the root. -/
def step (place : Place) (name : String) : Except PathFault Place := do
  tree.ensureDirectory place
  if name = "." then pure place
  else if name = ".." then pure place.dropLast
  else if 255 < name.utf8ByteSize && !tree.isClosed place then throw .tooLong
  else
    let next := place ++ [name]
    pure ((tree.links.lookup next).getD next)

/-- The place to which a path leads. A slash at its end is a step to the directory itself. -/
def follow (path : String) : Except PathFault Place := do
  if 4096 ≤ path.utf8ByteSize then throw .tooLong
  let steps := pathSteps path ++ if path.endsWith "/" then ["."] else []
  steps.foldlM tree.step (tree.startOf path)

/-- The text at a path: that of a file, or none at a device. -/
def read (path : String) : Except PathFault String := do
  match tree.entry? (← tree.follow path) with
  | some (.file text) => pure text
  | some (.device .terminal) => throw .detached
  | some (.device _) => pure ""
  | some .directory => throw .directory
  | none => throw .missing

/-- Where text goes that is written at a path: a file, there already or new, or a device. A path
with a slash at its end names neither. -/
def target (path : String) : Except PathFault Target := do
  if 4096 ≤ path.utf8ByteSize then throw .tooLong
  let steps := pathSteps path
  let parent ← steps.dropLast.foldlM tree.step (tree.startOf path)
  tree.ensureDirectory parent
  if path.endsWith "/" then throw .directory
  let place ← tree.step parent (steps.getLastD ".")
  match tree.entry? place with
  | some .directory => throw .directory
  | some (.device device) => pure (.device device)
  | some (.file _) => pure (.file place)
  | none => if tree.isClosed place then throw .missing else pure (.file place)

def put (place : Place) (text : String) : FileTree :=
  { tree with files := (place, text) :: tree.files.filter (·.1 != place) }

end FileTree

end TourPricing.CommandLine
