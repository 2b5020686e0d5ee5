import LineScript.Error

/-!
# Variables

All visible variables live in one flat list in the order of their declaration, so an inner block can
neither shadow nor redeclare a name.  Opening a scope notes how many variables there are; closing it
drops those that were added since.
-/

namespace LineScript

inductive Origin where
  | declaration
  | parameter
  deriving DecidableEq, Repr

structure Variable where
  value : Value
  /-- Fixed when the variable is declared. -/
  type : ValueType
  origin : Origin
  deriving DecidableEq, Repr

structure Symbols where
  /-- Names and variables, the oldest first. -/
  bindings : List (String × Variable) := []
  /-- The number of bindings when each open scope was opened, the innermost scope first. -/
  marks : List Nat := []
  deriving DecidableEq, Repr

namespace Symbols

def size (s : Symbols) : Nat :=
  s.bindings.length

def depth (s : Symbols) : Nat :=
  s.marks.length

def names (s : Symbols) : List String :=
  s.bindings.map Prod.fst

def get? (s : Symbols) (name : String) : Option Variable :=
  s.bindings.lookup name

def contains (s : Symbols) (name : String) : Bool :=
  (s.get? name).isSome

def lookup (s : Symbols) (name : String) : Except Cause Variable :=
  match s.get? name with
  | some v => .ok v
  | none => .error (.undeclared name)

/-- Declares a variable.  A bound name is refused before a value of the wrong type. -/
def add (s : Symbols) (name : String) (type : ValueType) (value : Value) (origin : Origin) :
    Except Cause Symbols :=
  if s.contains name then .error (.redeclared name)
  else if value.type ≠ type then .error (.mismatch (.initial type name value))
  else .ok { s with bindings := s.bindings ++ [(name, { value, type, origin })] }

def setValue (name : String) (value : Value) :
    List (String × Variable) → List (String × Variable)
  | [] => []
  | (n, v) :: rest =>
      if n = name then (n, { v with value }) :: rest else (n, v) :: setValue name value rest

@[simp] theorem map_fst_setValue (name : String) (value : Value)
    (bindings : List (String × Variable)) :
    (setValue name value bindings).map Prod.fst = bindings.map Prod.fst := by
  induction bindings with
  | nil => rfl
  | cons binding rest ih =>
      obtain ⟨n, v⟩ := binding
      by_cases same : n = name <;> simp [setValue, same, ih]

def update (s : Symbols) (name : String) (value : Value) : Except Cause Symbols :=
  match s.get? name with
  | none => .error (.undeclared name)
  | some v =>
      if value.type ≠ v.type then .error (.mismatch (.assigned v.type name value))
      else .ok { s with bindings := setValue name value s.bindings }

def push (s : Symbols) : Symbols :=
  { s with marks := s.size :: s.marks }

def pop (s : Symbols) : Symbols :=
  match s.marks with
  | [] => s
  | mark :: marks => { bindings := s.bindings.take mark, marks }

@[simp] theorem depth_push (s : Symbols) : s.push.depth = s.depth + 1 := rfl

@[simp] theorem pop_push (s : Symbols) : s.push.pop = s := by
  simp [push, pop, size]

@[simp] theorem depth_pop (s : Symbols) : s.pop.depth = s.depth - 1 := by
  obtain ⟨bindings, marks⟩ := s
  cases marks <;> rfl

def popMany : Nat → Symbols → Symbols
  | 0, s => s
  | n + 1, s => popMany n s.pop

@[simp] theorem depth_popMany (n : Nat) (s : Symbols) : (popMany n s).depth = s.depth - n := by
  induction n generalizing s with
  | zero => rfl
  | succ n ih =>
      simp only [popMany, ih, depth_pop]
      omega

/-- Closes scopes until at most `depth` are open. -/
def unwind (s : Symbols) (depth : Nat) : Symbols :=
  popMany (s.depth - depth) s

@[simp] theorem depth_unwind (s : Symbols) (depth : Nat) :
    (s.unwind depth).depth = min s.depth depth := by
  simp only [unwind, depth_popMany]
  omega

end Symbols

end LineScript
