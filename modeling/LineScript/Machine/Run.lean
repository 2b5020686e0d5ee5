import LineScript.Machine.Step
import LineScript.Program.Draft

/-!
# Runs

A machine is started on a program and makes steps until it is finished, stops, or has used up the
number of steps that it was given.
-/

namespace LineScript

/-- What a host gives to a run. -/
structure Settings where
  /-- Texts that a script reads with `system property`. -/
  properties : List (String × String) := []
  /-- The number of bytes that the output may hold. -/
  limit : Option Nat := none
  writer : Writer := .ofLimit limit

namespace Machine

def initial (program : Program) (settings : Settings) : Machine :=
  { program
    nextId := program.nextId
    sink := { writer := settings.writer }
    properties := settings.properties }

/-- The machine at the start of a program.  A program without lines is finished at once. -/
def start (program : Program) (settings : Settings) : Report Unit :=
  Action.goToLine 0 (initial program settings)

def step (m : Machine) : Report Unit :=
  Action.step m

/-- Makes steps, at most as many as the fuel, and gathers from the events of each. -/
def drive {σ : Type} (gather : σ → List Event → σ) : Nat → σ → Machine → σ × Machine × Option Stop
  | 0, s, m => (s, m, none)
  | fuel + 1, s, m =>
      if m.finished then (s, m, none)
      else
        let report := m.step
        let s := gather s report.events
        match report.result with
        | .error stop => (s, report.machine, some stop)
        | .ok () => drive gather fuel s report.machine

def run (fuel : Nat) (m : Machine) : Machine × Option Stop :=
  (drive (fun _ _ => ()) fuel () m).2

def history : Nat → Machine → List (Report Unit)
  | 0, _ => []
  | fuel + 1, m =>
      if m.finished then []
      else
        let report := m.step
        match report.result with
        | .error _ => [report]
        | .ok () => report :: history fuel report.machine

def flush (m : Machine) : Option Stop :=
  if m.sink.canFlush then none else some (.at 0 (.unhandled .flushFailed))

def complete (result : Machine × Option Stop) : Machine × Option Stop :=
  match result with
  | (m, none) => (m, if m.finished then m.flush else none)
  | stopped => stopped

end Machine

def Program.loadedEvent (p : Program) : Event :=
  .loaded p.length p.labels.length

/-- Loads a script and runs it, for at most as many steps as the fuel. -/
def runScript (fuel : Nat) (source : String) (settings : Settings) :
    Except LoadError (Machine × Option Stop) := do
  let program ← Program.load source
  return Machine.complete ((Machine.start program settings).machine.run fuel)

end LineScript
