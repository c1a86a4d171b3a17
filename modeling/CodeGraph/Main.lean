import CodeGraph.Report

/-!
The command line: it answers the queries among its arguments over the demonstration graph.
-/

open CodeGraph in
/-- Reads the settings of the environment and prints the report; the exit code tells whether the
demonstration graph could be built. -/
def main (arguments : List String) : IO UInt32 := do
  let strategy ← IO.getEnv Schedule.strategySetting
  let threshold ← IO.getEnv Schedule.thresholdSetting
  let chunkSize ← IO.getEnv Schedule.chunkSizeSetting
  let setting? (key : String) : Option String :=
    if key = Schedule.strategySetting then strategy
    else if key = Schedule.thresholdSetting then threshold
    else if key = Schedule.chunkSizeSetting then chunkSize
    else none
  match Demo.store with
  | .ok s =>
    for part in report (.ofSettings setting?) s arguments do
      IO.println part.render
    return 0
  | .error e =>
    IO.eprintln e.message
    return 1
