import LineScript.Machine.Action

/-!
# Branches

An `if` goes into its block or past it.  An `else` is looked for only where the block of an `if`
ends, so one that a run comes to by itself is passed over.
-/

namespace LineScript.Action

def elseBranch (p : Program) (close : Position) : Except Fault (Option Position) := do
  match ← p.following close with
  | none => return none
  | some after =>
      let token ← p.tokenAt after
      if token.kind = .keyword .else then p.following after else return some after

def takeBranch (f : Focus) (condition : Cell) : Action Unit := do
  match ← valueOf condition with
  | .bool taken =>
      let m ← get
      let block ← ofExcept (m.program.blockStart (m.positionOf f.cell))
      emit (.branch m.work.index taken)
      if taken then goTo (some block)
      else
        let close ← ofExcept (m.program.blockEnd block)
        let target ← ofFault (elseBranch m.program close)
        goTo target
  | other => fail f.cell.token.line (.mismatch (.condition other))

def branch (f : Focus) : Action Unit := do
  let condition ← rightOperand f
  match f.after.tail.head? with
  | some next =>
      if next.token.kind ≠ .openBrace then raise next.token.stray else takeBranch f condition
  | none => takeBranch f condition

/-- An `else` that is reached from the block before it: its own block is skipped. -/
def passElse (f : Focus) : Action Unit := do
  let m ← get
  let block ← ofExcept (m.program.blockAfter (m.positionOf f.cell))
  let after ← ofFault (m.program.following block.closing)
  goTo after

end LineScript.Action
