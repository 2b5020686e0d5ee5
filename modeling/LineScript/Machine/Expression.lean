import LineScript.Machine.Action
import LineScript.Machine.Builtin
import LineScript.Operator.Apply
import LineScript.Template

/-!
# Reducing expressions

Each action replaces the token in focus and its neighbours by what they come to.  Everything that
can fail comes before the first change, a failing call of a built-in function apart: it may have
printed.
-/

namespace LineScript.Action

def applyBinary (f : Focus) (op : Operator) : Action Unit := do
  let left ← leftOperand f
  let right ← rightOperand f
  let a ← valueOf left
  let b ← valueOf right
  let result ← ofCause f.cell.token.line (op.applyBetween a b)
  emit (.binary op result)
  answer f.cell.ref result
  remove left.ref
  remove right.ref

def powerAfter? (f : Focus) : Option Int :=
  match f.after with
  | _ :: next :: _ =>
      if next.token.kind = .operator .pow then some next.token.priority else none
  | _ => none

/-- The priority below a power that a negation has to wait for: its operand is the base of the
power, and the negation would act first. -/
def waitsBelow? (f : Focus) (op : Operator) : Option Int :=
  if op = .negate then
    (powerAfter? f).bind fun power =>
      if power ≤ f.cell.token.priority then some (power - 1) else none
  else none

def applyUnary (f : Focus) (op : Operator) : Action Unit := do
  let operand ← rightOperand f
  match waitsBelow? f op with
  | some priority =>
      emit (.negationWaits f.cell.token.line priority)
      edit fun line => line.setPriority f.cell.ref priority
  | none =>
      let v ← valueOf operand
      let result ← ofCause f.cell.token.line (op.applyBefore v)
      answer f.cell.ref result
      remove operand.ref

def assignmentTarget? : List Cell → Option (String × Option ValueType × List Cell)
  | [] => none
  | target :: before =>
      match target.token.kind with
      | .name name =>
          match before with
          | [] => some (name, none, before)
          | c :: rest =>
              match c.token.kind with
              | .type type => some (name, some type, rest)
              | _ => some (name, none, before)
      | _ => none

def assigned (symbols : Symbols) (op : Operator) (name : String) (declared : Option ValueType)
    (value : Value) : Except Cause Symbols :=
  match declared with
  | some type =>
      if op ≠ .assign then .error (.cannotReduce op.symbol)
      else symbols.add name type value .declaration
  | none =>
      if symbols.contains name then symbols.update name value
      else symbols.add name value.type value .declaration

def removeEach : List Cell → Action Unit
  | [] => return
  | c :: cells => do
      remove c.ref
      removeEach cells

def assign (f : Focus) (op : Operator) : Action Unit := do
  let line := f.cell.token.line
  match assignmentTarget? f.before with
  | none => fail line (.cannotReduce op.symbol)
  | some (name, declared, _) =>
      let source ← rightOperand f
      let operand ← valueOf source
      let m ← get
      let value ←
        match op.operation? with
        | none => pure operand
        | some base =>
            ofCause line (do base.applyBetween (← m.symbols.lookup name).value operand)
      let symbols ← ofCause line (assigned m.symbols op name declared value)
      setSymbols symbols
      emit (.assigned name value)
      if declared.isSome then removeEach (f.before.tail.take 1)
      answer f.cell.ref value
      removeEach (f.before.take 1)
      remove source.ref

def declare (f : Focus) (type : ValueType) : Action Unit := do
  match f.nextName? with
  | some name =>
      let m ← get
      let symbols ←
        ofCause f.cell.token.line (m.symbols.add name type type.default .declaration)
      setSymbols symbols
      remove f.cell.ref
  | none => raise f.cell.token.stray

def pieceToken (line : Nat) (priority : Int) (kind : TokenKind) (id : Nat) : Token :=
  let token := Token.new kind id line
  match kind with
  | .operator _ => { token with priority }
  | _ => token

def insertPieces (r : Ref) (line : Nat) (priority : Int) : List TokenKind → Action Unit
  | [] => return
  | kind :: kinds => do
      let id ← newId
      edit fun l => l.insertBefore r (pieceToken line priority kind id)
      insertPieces r line priority kinds

/-- The sum that a template stands for, in its place.  The sum acts before anything that the
template competed with. -/
def expandTemplate (f : Focus) (template : String) : Action Unit := do
  let token := f.cell.token
  let priority := Priority.additive + (token.priority - Priority.template) + Priority.boost
  let segments ← ofCause token.line (Template.segments template)
  insertPieces f.cell.ref token.line priority (Template.expansion segments)
  remove f.cell.ref

/-!
## Built-in functions
-/

def builtinName? : TokenKind → Option String
  | .name s => some s
  | .literal (.string s) => some s
  | .type t => some t.name
  | _ => none

def builtinArguments (m : Machine) : List Cell → Except Stop (List Value × List Cell)
  | [] => .ok ([], [])
  | c :: cs =>
      if c.token.kind = .comma then builtinArguments m cs
      else if c.token.kind.isOperand then do
        let v ← m.valueOf c.token
        let (args, rest) ← builtinArguments m cs
        return (v :: args, rest)
      else .ok ([], c :: cs)

def lastBefore (other : Cell) (cells rest : List Cell) : Cell :=
  (cells.take (cells.length - rest.length)).getLast?.getD other

/-- A `system` call.  Its result takes its place; without a result the line is cleared. -/
def callBuiltin (f : Focus) : Action Unit := do
  let line := f.cell.token.line
  match f.after with
  | [] => raise f.cell.token.stray
  | target :: following =>
      match builtinName? target.token.kind with
      | none => raise f.cell.token.stray
      | some name =>
          let m ← get
          let (args, rest) ← ofExcept (builtinArguments m following)
          let (sink, result) := Builtin.run name m.properties args m.sink
          modify fun m => { m with sink }
          let result ← ofCause line result
          emit (.builtin name args.length)
          match result with
          | some value =>
              edit fun l => l.dropAfter f.cell.ref (lastBefore target following rest).ref
              answer f.cell.ref value
          | none => edit fun l => .ok l.clear

end LineScript.Action
