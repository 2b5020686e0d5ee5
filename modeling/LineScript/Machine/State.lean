import LineScript.Function
import LineScript.Machine.Event
import LineScript.Machine.Sink
import LineScript.Symbols

/-!
# The state of a run

A machine holds a program and all that its run needs: the line being reduced, the variables, the
functions, and a frame for everything that has to be come back to.  There is no recursion: a loop, a
call and a `goto` each leave a frame on a stack of the machine.  All stacks but that of the blocks
list the innermost frame first.
-/

namespace LineScript

/-- What happens when the line has nothing left to do. -/
inductive Purpose where
  /-- The next line follows. -/
  | statement
  /-- The first part of a `for` header; the condition follows. -/
  | loopInit
  /-- The result decides whether the body runs. -/
  | loopCondition
  /-- The last part of a `for` header; the condition follows. -/
  | loopStep
  deriving DecidableEq, Repr

/-- A copy of a program line that is being reduced. -/
structure Work where
  /-- The line that was copied. -/
  index : Nat := 0
  line : Line := {}
  purpose : Purpose := .statement
  /-- A token that acts before the one of highest priority. -/
  selected : Option Ref := none
  deriving DecidableEq, Repr

abbrev HeaderPart := Ref × Ref

/-- A loop that is running.  The parts of its header are reduced on copies of the header line. -/
structure Loop where
  form : LoopForm
  header : Nat
  init : Option HeaderPart
  /-- A loop without a condition ends at once. -/
  condition : Option HeaderPart
  step : Option HeaderPart
  body : Extent
  /-- The number of scopes that were open before that of the loop. -/
  scopes : Nat
  /-- The number of calls that were active when the loop began. -/
  calls : Nat
  deriving DecidableEq, Repr

def Loop.contains (loop : Loop) (line : Nat) : Bool :=
  loop.header < line && line ≤ loop.body.closing.line

/-- A scope that was opened by a `{` in the flow of control. -/
structure Block where
  /-- The number of scopes that were open with it. -/
  depth : Nat
  brace : Position
  deriving DecidableEq, Repr

structure Call where
  function : Function
  /-- The line of the call. -/
  origin : Nat
  /-- The name in the saved line. -/
  nameRef : Ref
  /-- The closing parenthesis in the saved line. -/
  closeRef : Ref
  /-- The number of scopes that were open before that of the parameters. -/
  scopes : Nat
  /-- The number of loops that were running when the call was made. -/
  loops : Nat
  /-- The line that goes on when the call returns. -/
  saved : Work
  deriving DecidableEq, Repr

structure Machine where
  program : Program
  symbols : Symbols := {}
  functions : Functions := {}
  calls : List Call := []
  /-- The lines whose `goto` can be gone back to. -/
  gotos : List Nat := []
  loops : List Loop := []
  /-- The outermost block first. -/
  blocks : List Block := []
  work : Work := {}
  nextId : Nat := 0
  sink : Sink := {}
  properties : List (String × String) := []
  finished : Bool := false

namespace Machine

def currentLine? (m : Machine) : Option Nat :=
  if m.finished then none else some m.work.index

def value? (m : Machine) (name : String) : Option Value :=
  (m.symbols.get? name).map Variable.value

def positionOf (m : Machine) (c : Cell) : Position :=
  { line := m.work.index, token := c.ref }

/-- The value of a name: a variable, else a reference to the function of that name. -/
def valueOfName (m : Machine) (name : String) : Except Cause Value :=
  match m.symbols.get? name with
  | some v => .ok v.value
  | none =>
      if m.functions.contains name then .ok (.function name) else .error (.undeclared name)

def valueOf (m : Machine) (t : Token) : Except Stop Value :=
  match t.kind with
  | .literal v => .ok v
  | .name name => (m.valueOfName name).mapError (.at t.line)
  | _ => .error (.error t.stray)

/-- The function that a call names.  A variable that holds a reference calls what it refers to. -/
def callee (m : Machine) (name : String) : Except Cause Function :=
  let target :=
    match m.symbols.get? name with
    | some { value := .function target, .. } => target
    | _ => name
  match m.functions.get? target with
  | some f => .ok f
  | none => .error (.undefinedFunction target)

end Machine

end LineScript
