import LineScript.CommandLine

/-!
# The program

Reads the script that the command line names, runs it, and prints as it goes.
-/

namespace LineScript.CommandLine

def reasonText (e : IO.Error) : String :=
  match e with
  | .noFileOrDirectory _ code reason => reason ++ " (os error " ++ toString code ++ ")"
  | .inappropriateType _ code reason => reason ++ " (os error " ++ toString code ++ ")"
  | .permissionDenied _ code reason => reason ++ " (os error " ++ toString code ++ ")"
  | other => toString other

def report (ending : Ending) : IO UInt32 := do
  IO.print ending.stdout
  IO.eprint ending.stderr
  return ending.exit.toUInt32

/-- Runs a machine a number of steps at a time and prints what each round has written. -/
partial def printing (m : Machine) : IO (Option Stop) := do
  let (m, stop) := m.run 4096
  IO.print m.sink.text
  (← IO.getStdout).flush
  if stop.isSome || m.finished then return stop
  else printing { m with sink := { m.sink with text := "" } }

def runPrinting (script : String) (properties : List (String × String)) : IO UInt32 := do
  match Program.load script with
  | .error e => report (failedToLoad e)
  | .ok program =>
      let stop ← printing (Machine.start program { properties }).machine
      report (ended "" stop)

end LineScript.CommandLine

open LineScript.CommandLine in
def main (args : List String) : IO UInt32 := do
  match parse? args with
  | none =>
      IO.eprintln "usage: [-f PATH | SCRIPT] [-D KEY=VALUE]..."
      report misuse
  | some invocation =>
      match invocation.source with
      | .text script => runPrinting script invocation.properties
      | .file path =>
          match ← (IO.FS.readFile path).toBaseIO with
          | .ok script => runPrinting script invocation.properties
          | .error e => report (unreadable path (reasonText e))
