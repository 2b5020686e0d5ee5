import LineScript.Machine.Call
import LineScript.Machine.Loop

/-!
# Blocks

A `{` in the flow of control opens a scope and a `}` closes the innermost one.  The `}` of a loop or
a function is also where an iteration or a call ends.
-/

namespace LineScript.Action

def openBlock (f : Focus) : Action Unit := do
  let m ← get
  remove f.cell.ref
  newScope (some (m.positionOf f.cell))

/-- Whether a line ends the body of the innermost loop, and the loop belongs to the running
function. -/
def endsLoop (m : Machine) (index : Nat) : Bool :=
  match m.loops with
  | [] => false
  | loop :: _ => loop.body.closing.line = index && loop.calls = m.calls.length

/-- A `}`.  That of the innermost loop ends an iteration, that of the running function returns
`null`. -/
def closeBlock (f : Focus) : Action Unit := do
  let line := f.cell.token.line
  let m ← get
  let index := m.work.index
  let symbols := m.symbols.pop
  remove f.cell.ref
  setSymbols symbols
  emit (.scopeClosed index (m.symbols.size - symbols.size))
  if endsLoop m index then nextIteration
  else
    match m.calls with
    | [] => return
    | call :: _ =>
        if call.function.body.closing.line = index then
          if call.function.returns ≠ .null then
            fail line (.mismatch (.noReturn call.function.name call.function.returns))
          else endCall .null line
        else return

end LineScript.Action
