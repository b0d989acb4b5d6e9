import TourPricing.CommandLine.FileTree
import TourPricing.CommandLine.Run

namespace TourPricing.CommandLine

/-- A tree of files and what was printed while commands ran in it. -/
structure Session where
  tree : FileTree
  out : String := ""
  err : String := ""

namespace Session

def systemDirectories : List String :=
  ["bin", "boot", "etc", "home", "lib", "lib64", "media", "mnt", "opt", "root", "run", "sbin",
    "srv", "sys", "tmp", "usr", "var"]

/-- The devices that systems have. What is read is nothing, since no input is given. -/
def systemDevices : List (Place × Device) :=
  let named := [("null", .null), ("zero", .null), ("random", .null), ("urandom", .null),
    ("full", .full), ("tty", .terminal)].map fun (name, device) => (["dev", name], device)
  let numbered := [("0", .null), ("1", .out), ("2", .err)].map fun (name, device) =>
    (["proc", "self", "fd", name], device)
  named ++ numbered

/-- The places that systems give to the streams of a program. -/
def systemLinks : List (Place × Place) :=
  let streams : Place := ["proc", "self", "fd"]
  [(["dev", "fd"], streams), (["dev", "stdin"], streams ++ ["0"]),
    (["dev", "stdout"], streams ++ ["1"]), (["dev", "stderr"], streams ++ ["2"])]

/-- The session in a temporary directory with some files. No path names the directory by its own
name, which is empty; besides it there are the usual directories and devices. -/
def start (files : List (String × String)) : Session :=
  let home : Place := ["tmp", ""]
  { tree :=
      { home
        directories := home :: ["dev", "shm"] :: systemDirectories.map ([·])
        devices := systemDevices
        links := (["proc", "self", "cwd"], home) :: systemLinks
        closed := [["proc"]]
        files := files.map fun (path, text) => (home ++ pathSteps path, text) } }

def write (s : Session) (path text : String) : Except PathFault Session := do
  match ← s.tree.target path with
  | .file place => pure { s with tree := s.tree.put place text }
  | .device .null => pure s
  | .device .full => throw .full
  | .device .out => pure { s with out := s.out ++ text }
  | .device .err => pure { s with err := s.err ++ text }
  | .device .terminal => throw .detached

instance : Console (StateM Session) where
  load path := do pure (((← get).tree.read path).mapError (·.message))
  save path text := do
    match (← get).write path text with
    | .ok s =>
      set s
      pure (.ok ())
    | .error fault => pure (.error fault.message)
  out text := modify fun s => { s with out := s.out ++ text }
  err text := modify fun s => { s with err := s.err ++ text }

/-- Runs a command: its exit code and the session after it. -/
def run (s : Session) (args : List String) : Nat × Session :=
  (CommandLine.run args : StateM Session Nat).run s

end Session

end TourPricing.CommandLine
