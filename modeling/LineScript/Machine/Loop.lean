import LineScript.Machine.Action
import LineScript.Operator.Arithmetic

/-!
# Loops

A loop leaves a frame and opens a scope of its own.  Its header parts are reduced on copies of the
header line, so that every iteration starts from the same tokens.
-/

namespace LineScript.Action

def workOnHeader (header : Nat) (part : HeaderPart) (purpose : Purpose) : Action Unit := do
  let m ← get
  let line ← ofFault (do (← m.program.lineAt header).keepRange part.1 part.2)
  modify fun m => { m with work := { index := header, line, purpose } }

def leaveLoop : Action Unit := do
  let m ← get
  match m.loops with
  | [] => return
  | loop :: loops =>
      let symbols := m.symbols.unwind loop.scopes
      modify fun m => { m with loops, symbols }
      emit (.loopLeft loop.header (m.symbols.size - symbols.size))
      let after ← ofFault (m.program.following loop.body.closing)
      goTo after

def testLoop : Action Unit := do
  let m ← get
  match m.loops with
  | [] => return
  | loop :: _ =>
      match loop.condition with
      | some part => workOnHeader loop.header part .loopCondition
      | none => leaveLoop

def decideLoop (result : Option Token) : Action Unit := do
  match result with
  | none => leaveLoop
  | some token =>
      let m ← get
      let value ← ofExcept (m.valueOf token)
      let holds ← ofCause token.line value.asBool
      if holds then
        match m.loops with
        | [] => return
        | loop :: _ => goTo (some loop.body.opening)
      else leaveLoop

def nextIteration : Action Unit := do
  let m ← get
  match m.loops with
  | [] => return
  | loop :: _ =>
      setSymbols (m.symbols.unwind (loop.scopes + 1))
      match loop.step with
      | some part => workOnHeader loop.header part .loopStep
      | none => testLoop

def beginLoop (loop : Loop) : Action Unit := do
  emit (.loopEntered loop.form loop.header loop.body.closing.line)
  newScope none
  modify fun m => { m with loops := loop :: m.loops }

def whileCondition (line : Line) (header : Nat) (keyword : Ref) (opening : Position) :
    Except Fault (Option HeaderPart) := do
  let first ← line.next keyword
  let last ← if opening.line = header then line.prev opening.token else pure line.last?
  match first, last with
  | some first, some last =>
      return if first ≠ opening.token ∧ last ≠ keyword then some (first, last) else none
  | _, _ => return none

def startWhile (f : Focus) : Action Unit := do
  let m ← get
  let header := m.work.index
  let body ← ofExcept (m.program.blockAfter (m.positionOf f.cell))
  let line ← ofFault (m.program.lineAt header)
  let condition ← ofFault (whileCondition line header f.cell.ref body.opening)
  beginLoop
    { form := .while
      header
      init := none
      condition
      step := none
      body
      scopes := m.symbols.depth
      calls := m.calls.length }
  testLoop

def headerParts : Option HeaderPart → List Cell → List (Option HeaderPart)
  | part, [] => [part]
  | part, c :: cs =>
      if c.token.kind = .semicolon then part :: headerParts none cs
      else
        match part with
        | none => headerParts (some (c.ref, c.ref)) cs
        | some (first, _) => headerParts (some (first, c.ref)) cs

def startFor (f : Focus) : Action Unit := do
  let m ← get
  let header := m.work.index
  let line ← ofFault (m.program.lineAt header)
  let start ← ofFault (line.focus f.cell.ref)
  let lineNo := start.cell.token.line
  let malformed : Cause := .cannotReduce Keyword.for.word
  match start.after with
  | [] => fail lineNo malformed
  | opening :: rest =>
      if opening.token.kind ≠ .bracket .paren .opening then fail lineNo malformed
      else
        match ← ofFault (Line.enclosed .paren opening rest) with
        | none => fail lineNo (.neverClosed "(")
        | some (inner, close, _) =>
            match headerParts none inner with
            | [init, condition, step] =>
                let body ←
                  ofExcept (m.program.blockAfter { line := header, token := close.ref })
                beginLoop
                  { form := .for
                    header
                    init
                    condition
                    step
                    body
                    scopes := m.symbols.depth
                    calls := m.calls.length }
                match init with
                | some part => workOnHeader header part .loopInit
                | none => testLoop
            | _ => fail lineNo malformed

/-- A `break` or `continue`: the line becomes a signal, which acts when the statement completes. -/
def markSignal (f : Focus) (signal : Signal) : Action Unit :=
  modify fun m =>
    let token := Token.new (.signal signal) m.nextId f.cell.token.line
    { m with
      nextId := m.nextId + 1
      work := { m.work with line := m.work.line.clear.append token } }

def obeySignal (signal : Signal) (line : Nat) : Action Unit := do
  let m ← get
  match m.loops with
  | [] => fail line (.unhandled (.outsideLoop signal))
  | loop :: _ =>
      if loop.calls = m.calls.length then
        match signal with
        | .break => leaveLoop
        | .continue => nextIteration
      else fail line (.unhandled (.outsideLoop signal))

end LineScript.Action
