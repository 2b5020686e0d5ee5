import LineScript.Machine.Action

/-!
# Calls

A call saves the working line, opens a scope for the parameters and goes on in the body; a return
restores the line with the value in the place of the call.
-/

namespace LineScript.Action

/-!
## Making a call
-/

def readArguments (m : Machine) (close : Cell) (read : List Value) : Bool → List Cell →
    Except Stop (List Value)
  | expecting, [] =>
      if expecting && !read.isEmpty then .error (.at close.token.line (.cannotReduce ","))
      else .ok read
  | expecting, c :: cs =>
      if c.token.kind = .comma && !expecting then readArguments m close read true cs
      else if c.token.kind.isOperand && expecting then do
        let v ← m.valueOf c.token
        readArguments m close (read ++ [v]) false cs
      else .error (.error c.token.stray)

def checkArguments (f : Function) (args : List Value) : Except Cause Unit :=
  if args.length ≠ f.parameters.length then
    .error (.argumentCount f.name f.parameters.length args.length)
  else
    match (f.parameters.zip args).find? fun (p, v) => v.type ≠ p.type with
    | some (p, v) => .error (.mismatch (.argument p.name f.name p.type v))
    | none => .ok ()

/-- Declares parameters one by one; those before one that is refused stay declared. -/
def bindParameters (line : Nat) : List (Parameter × Value) → Action Unit
  | [] => return
  | (p, v) :: rest => do
      let m ← get
      let symbols ← ofCause line (m.symbols.add p.name p.type v .parameter)
      setSymbols symbols
      bindParameters line rest

def calleeBefore? (f : Focus) : Option (Ref × String) :=
  f.prev?.bind fun c => c.token.kind.name?.map fun name => (c.ref, name)

def beginCall (f : Focus) (inner : List Cell) (close : Cell) : Action Unit := do
  let line := f.cell.token.line
  match calleeBefore? f with
  | some (nameRef, name) =>
      let m ← get
      let args ← ofExcept (readArguments m close [] true inner)
      let function ← ofCause line (m.callee name)
      ofCause line (checkArguments function args)
      modify fun m =>
        { m with
          work := {}
          calls :=
            { function
              origin := m.work.index
              nameRef
              closeRef := close.ref
              scopes := m.symbols.depth
              loops := m.loops.length
              saved := m.work } :: m.calls }
      newScope none
      bindParameters line (function.parameters.zip args)
      let m ← get
      emit (.called function.name m.calls.length)
      let start ← ofFault (m.program.following function.body.opening)
      goTo start
  | none => fail line (.cannotReduce "(")

/-!
## Returning
-/

/-- Leaves the innermost call: closes the scopes and loops that were opened since, restores the line
of the caller, and puts the value in the place of the name and its arguments. -/
def endCall (value : Value) (line : Nat) : Action Unit := do
  let m ← get
  match m.calls with
  | [] => fail line .noCall
  | call :: calls =>
      modify fun m => { m with calls }
      let function := call.function
      if value.type ≠ function.returns then
        fail line (.mismatch (.returned function.name function.returns value))
      else
        let symbols := m.symbols.unwind call.scopes
        modify fun m =>
          { m with
            symbols
            loops := m.loops.drop (m.loops.length - call.loops)
            work := call.saved }
        emit (.returned function.name value (m.symbols.size - symbols.size) call.origin)
        edit fun l => l.dropAfter call.nameRef call.closeRef
        answer call.nameRef value

def giveBack (f : Focus) : Action Unit := do
  let value ←
    match f.after with
    | [] => pure .null
    | [operand] => valueOf operand
    | _ :: stray :: _ => raise stray.token.stray
  endCall value f.cell.token.line

end LineScript.Action
