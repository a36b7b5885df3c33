import StellarWind.Survey.Options

/-!
# The command line

Runs a survey with the settings of a file and of the arguments, and prints its
report.
-/

namespace StellarWind

namespace Survey

/-- How the program is called. -/
def usage : String :=
  "Usage: stellarwind [--config FILE] [--workers N] [--cells N] [--photons N] [--seed N] " ++
    "[--spherical]"

def readFile (path : String) : IO (Option ByteArray) := do
  try
    return some (← IO.FS.readBinFile path)
  catch _ =>
    return none

/-- Run a survey and print its report; the result is the exit code. -/
def runOptions (o : Options) : IO UInt32 := do
  let file ← o.config.mapM readFile
  let (lines, result) := o.survey file
  lines.forM IO.println
  match result with
  | .ok () => return 0
  | .error a =>
    if let .error failure := a then
      IO.eprintln failure.text
    return (exitCode a).toUInt32

end Survey

end StellarWind

def main (args : List String) : IO UInt32 := do
  match StellarWind.Survey.Options.read? .none args with
  | some o => StellarWind.Survey.runOptions o
  | none =>
    IO.eprintln StellarWind.Survey.usage
    return 2
