import LineScript.Machine.State

/-!
# Actions

An action changes a machine, reports events, and ends with a result or a reason to stop.  The
machine that it leaves is given also when it stops.
-/

namespace LineScript

structure Report (α : Type) where
  machine : Machine
  events : List Event
  result : Except Stop α

def Action (α : Type) := Machine → Report α

namespace Action

protected def pure {α : Type} (a : α) : Action α := fun m =>
  { machine := m, events := [], result := .ok a }

protected def bind {α β : Type} (x : Action α) (f : α → Action β) : Action β := fun m =>
  let first := x m
  match first.result with
  | .error stop => { machine := first.machine, events := first.events, result := .error stop }
  | .ok a =>
      let second := f a first.machine
      { second with events := first.events ++ second.events }

instance : Monad Action where
  pure := Action.pure
  bind := Action.bind

def get : Action Machine := fun m =>
  { machine := m, events := [], result := .ok m }

def modify (change : Machine → Machine) : Action Unit := fun m =>
  { machine := change m, events := [], result := .ok () }

def emit (e : Event) : Action Unit := fun m =>
  { machine := m, events := [e], result := .ok () }

def ofExcept {α : Type} (x : Except Stop α) : Action α := fun m =>
  { machine := m, events := [], result := x }

def stop {α : Type} (s : Stop) : Action α :=
  ofExcept (.error s)

def raise {α : Type} (e : RuntimeError) : Action α :=
  stop (.error e)

def fail {α : Type} (line : Nat) (cause : Cause) : Action α :=
  stop (.at line cause)

/-!
What the building blocks do to a machine.
-/

@[simp] theorem pure_apply {α : Type} (a : α) (m : Machine) :
    (pure a : Action α) m = { machine := m, events := [], result := .ok a } := rfl

@[simp] theorem get_apply (m : Machine) :
    get m = { machine := m, events := [], result := .ok m } := rfl

@[simp] theorem modify_apply (change : Machine → Machine) (m : Machine) :
    modify change m = { machine := change m, events := [], result := .ok () } := rfl

@[simp] theorem emit_apply (e : Event) (m : Machine) :
    emit e m = { machine := m, events := [e], result := .ok () } := rfl

@[simp] theorem ofExcept_apply {α : Type} (x : Except Stop α) (m : Machine) :
    ofExcept x m = { machine := m, events := [], result := x } := rfl

theorem bind_apply {α β : Type} (x : Action α) (f : α → Action β) (m : Machine) :
    (x >>= f) m =
      match (x m).result with
      | .error stop => { machine := (x m).machine, events := (x m).events, result := .error stop }
      | .ok a =>
          { f a (x m).machine with events := (x m).events ++ (f a (x m).machine).events } := rfl

theorem bind_of_ok {α β : Type} {x : Action α} {m : Machine} {a : α} (f : α → Action β)
    (ran : (x m).result = .ok a) :
    (x >>= f) m =
      { f a (x m).machine with events := (x m).events ++ (f a (x m).machine).events } := by
  rw [bind_apply, ran]

theorem bind_of_error {α β : Type} {x : Action α} {m : Machine} {stop : Stop} (f : α → Action β)
    (ran : (x m).result = .error stop) :
    (x >>= f) m =
      { machine := (x m).machine, events := (x m).events, result := .error stop } := by
  rw [bind_apply, ran]

def ofCause {α : Type} (line : Nat) (x : Except Cause α) : Action α :=
  ofExcept (x.mapError (.at line))

def ofFault {α : Type} (x : Except Fault α) : Action α :=
  ofExcept (orFault x)

def edit (change : Line → Except Fault Line) : Action Unit := do
  let m ← get
  let line ← ofFault (change m.work.line)
  modify fun m => { m with work := { m.work with line } }

def remove (r : Ref) : Action Unit :=
  edit fun line => line.remove r

def setSymbols (symbols : Symbols) : Action Unit :=
  modify fun m => { m with symbols }

def newId : Action Nat := do
  let m ← get
  modify fun m => { m with nextId := m.nextId + 1 }
  return m.nextId

def answer (r : Ref) (value : Value) : Action Unit := do
  let m ← get
  let token ← ofFault (m.work.line.get r)
  let id ← newId
  edit fun line => line.replace r (.literal value id token.line)

def valueOf (c : Cell) : Action Value := do
  let m ← get
  ofExcept (m.valueOf c.token)

def asOperand (f : Focus) (c? : Option Cell) : Action Cell :=
  match c? with
  | some c => if c.token.kind.isOperand then pure c else raise f.cell.token.stray
  | none => raise f.cell.token.stray

def leftOperand (f : Focus) : Action Cell :=
  asOperand f f.prev?

def rightOperand (f : Focus) : Action Cell :=
  asOperand f f.next?

def halt : Action Unit := do
  let m ← get
  emit (.finished m.symbols.depth m.calls.length)
  modify fun m => { m with work := {}, finished := true }

def goToLine (index : Nat) : Action Unit := do
  let m ← get
  match m.program.lines[index]? with
  | some line => modify fun m => { m with work := { index, line } }
  | none => halt

/-- Goes on at a token; what stands before it on its line is dropped.  A `{` that is jumped to opens
its block at once.  Without a token the run ends. -/
def goTo (target : Option Position) : Action Unit :=
  match target with
  | none => halt
  | some pos => do
      let m ← get
      let line ← ofFault (do (← m.program.lineAt pos.line).dropBefore pos.token)
      let token ← ofFault (line.get pos.token)
      emit (.jump pos.line)
      modify fun m =>
        { m with
          work :=
            { index := pos.line
              line
              purpose := .statement
              selected := if token.kind = .openBrace then some pos.token else none } }

/-- Opens a scope.  Only the scope of a block records its `{`; records of scopes that were closed
are dropped. -/
def newScope (brace : Option Position) : Action Unit :=
  modify fun m =>
    let symbols := m.symbols.push
    let depth := symbols.depth
    let kept := m.blocks.filter fun b => b.depth < depth
    { m with
      symbols
      blocks :=
        match brace with
        | some brace => kept ++ [{ depth, brace }]
        | none => kept }

end Action

end LineScript
