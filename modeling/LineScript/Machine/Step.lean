import LineScript.Machine.Block
import LineScript.Machine.Branch
import LineScript.Machine.Definition
import LineScript.Machine.Expression
import LineScript.Machine.Label

/-!
# Steps

One step acts on one token of the working line: it reduces an expression, changes the state, or
transfers control.  A line with nothing left to do completes.
-/

namespace LineScript.Action

/-- An opening parenthesis.  When it is first reached, all up to its partner is boosted, so that it
is reduced before anything outside.  When it is reached again, a group must hold one operand and a
call is made. -/
def applyParen (f : Focus) (bracket : Bracket) : Action Unit := do
  let token := f.cell.token
  match ← ofFault (Line.enclosed bracket f.cell f.after) with
  | none => fail token.line (.neverClosed "(")
  | some (inner, close, _) =>
      if !token.expanded then
        edit fun line => line.boostInside f.cell.ref close.ref Priority.boost
        edit fun line => line.modify f.cell.ref fun t => { t with expanded := true }
      else if bracket = .call then beginCall f inner close
      else
        match inner with
        | [] => fail token.line (.cannotReduce "()")
        | [c] =>
            if c.token.kind.isOperand then
              remove f.cell.ref
              remove close.ref
            else raise c.token.stray
        | _ :: stray :: _ => raise stray.token.stray

def applyKeyword (f : Focus) (keyword : Keyword) : Action Unit :=
  match keyword with
  | .if => branch f
  | .else => passElse f
  | .while => startWhile f
  | .for => startFor f
  | .goto => jumpToLabel f
  | .goback => jumpBack f
  | .define => define f
  | .return => giveBack f
  | .system => callBuiltin f
  | .break => markSignal f .break
  | .continue => markSignal f .continue

def perform (f : Focus) : Action Unit :=
  match f.cell.token.kind with
  | .bracket .scope .opening => openBlock f
  | .bracket .scope .closing => closeBlock f
  | .bracket bracket .opening => applyParen f bracket
  | .operator op =>
      if op.isAssignment then assign f op
      else if op.isUnary then applyUnary f op
      else applyBinary f op
  | .type type => declare f type
  | .template template => expandTemplate f template
  | .keyword keyword => applyKeyword f keyword
  | _ => raise f.cell.token.stray

def signalOf? (result : Option Token) : Option (Signal × Nat) :=
  result.bind fun t =>
    match t.kind with
    | .signal signal => some (signal, t.line)
    | _ => none

def conclude (result : Option Token) : Action Unit := do
  let m ← get
  match m.work.purpose with
  | .statement =>
      match signalOf? result with
      | some (signal, line) => obeySignal signal line
      | none => goToLine (m.work.index + 1)
  | .loopInit => testLoop
  | .loopStep => testLoop
  | .loopCondition => decideLoop result

/-- The token to act on: a selected one that can act, else that of highest priority. -/
def choice? (work : Work) : Option Ref :=
  let selected := work.selected.filter fun r =>
    match work.line.focus? r with
    | some f => !f.cell.token.kind.isInert
    | none => false
  selected <|> work.line.highest?

def act (f : Focus) : Action Unit := do
  let token := f.cell.token
  if token.kind.isInert then
    match f.next? <|> f.prev? with
    | some other => raise other.token.stray
    | none => do
        remove f.cell.ref
        conclude (some token)
  else do
    let m ← get
    emit (.reducing m.work.index token m.work.line)
    perform f

def step : Action Unit := do
  let m ← get
  if m.finished then return
  else if m.work.line.isEmpty then conclude none
  else
    modify fun m => { m with work := { m.work with selected := none } }
    match choice? m.work with
    | none => conclude none
    | some r =>
        let f ← ofFault (m.work.line.focus r)
        act f

end LineScript.Action
