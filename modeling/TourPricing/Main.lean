import TourPricing.CommandLine.FileTree
import TourPricing.CommandLine.Run

namespace TourPricing.CommandLine

/-- The text for a failure with a number, which may come with its sign turned. -/
def numberedText (code : UInt32) (details : String) : String :=
  match min code.toNat (-code).toNat with
  | 2 => PathFault.missing.message
  | 6 => PathFault.detached.message
  | 20 => PathFault.throughFile.message
  | 21 => PathFault.directory.message
  | 36 => PathFault.tooLong.message
  | 13 => "Permission denied (os error 13)"
  | 28 => PathFault.full.message
  | number => s!"{details} (os error {number})"

/-- The text for a failure of the system, or for a file that holds no text. -/
def systemText : IO.Error → String
  | .noFileOrDirectory _ code details => numberedText code details
  | .noSuchThing _ code details => numberedText code details
  | .permissionDenied _ code details => numberedText code details
  | .inappropriateType _ code details => numberedText code details
  | .invalidArgument _ code details => numberedText code details
  | .resourceExhausted _ code details => numberedText code details
  | .userError _ => "stream did not contain valid UTF-8"
  | e => toString e

instance : Console IO where
  load path := do
    try pure (.ok (← IO.FS.readFile path))
    catch e => pure (.error (systemText e))
  save path text := do
    try
      let file ← IO.FS.Handle.mk path .write
      file.putStr text
      file.flush
      pure (.ok ())
    catch e => pure (.error (systemText e))
  out text := do
    IO.print text
    (← IO.getStdout).flush
  err := IO.eprint

end TourPricing.CommandLine

def main (args : List String) : IO UInt32 := do
  pure (← TourPricing.CommandLine.run args).toUInt32
