import StepMotion.CommandLine.Run

/-! The command line program: it reads the files that the options name and prints the result. -/

namespace StepMotion.CommandLine

def readBytes (path : String) : IO (Option ByteArray) :=
  try some <$> IO.FS.readBinFile path catch _ => return none

def readInput : IO (Option ByteArray) := do
  try return some (← (← IO.getStdin).readToEnd).toUTF8 catch _ => return none

def printResult (result : Result) : IO UInt32 := do
  (← IO.getStdout).putStr result.stdout
  (← IO.getStderr).putStr result.stderr
  return result.code.toUInt32

end StepMotion.CommandLine

open StepMotion.CommandLine in
/-- Exits with 0 after a report or the help text, 1 after a failed run, 2 on wrong arguments. -/
def main (arguments : List String) : IO UInt32 := do
  match Options.parse arguments with
  | .error stop => printResult (stopped stop)
  | .ok options =>
    let config ← readBytes options.config
    let moves ← match options.moves with
      | some path => readBytes path
      | none => readInput
    printResult (run options config moves)
