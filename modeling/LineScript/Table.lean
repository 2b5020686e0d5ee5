import LineScript.Line
import LineScript.Symbols

/-!
# Tables of variables

A table maps the names of the visible variables to them.  Beside the map it keeps the names in the
order of their declaration, and for every open scope how many there were when it was opened.
Closing a scope cuts the order at its mark, and takes what is cut off out of the map, the newest
name first.
-/

namespace LineScript

structure Table where
  entries : String → Option Variable := fun _ => none
  /-- The oldest name first. -/
  order : List String := []
  /-- The innermost scope first. -/
  marks : List Nat := []

namespace Table

inductive Halt where
  | refused (cause : Cause)
  | fault (fault : Fault)
  deriving DecidableEq, Repr

abbrev Change := EStateM Halt Table

def contains (t : Table) (name : String) : Bool :=
  (t.entries name).isSome

def put (name : String) (bound? : Option Variable) : Change Unit :=
  modify fun t =>
    { t with entries := fun n => if n = name then bound? else t.entries n }

def add (name : String) (type : ValueType) (value : Value) (origin : Origin) : Change Unit := do
  let t ← get
  if t.contains name then throw (.refused (.redeclared name))
  else if value.type ≠ type then throw (.refused (.mismatch (.initial type name value)))
  else do
    put name (some { value, type, origin })
    modify fun t => { t with order := t.order ++ [name] }

def update (name : String) (value : Value) : Change Unit := do
  let t ← get
  match t.entries name with
  | none => throw (.refused (.undeclared name))
  | some v =>
      if value.type ≠ v.type then throw (.refused (.mismatch (.assigned v.type name value)))
      else put name (some { v with value })

def push : Change Unit :=
  modify fun t => { t with marks := t.order.length :: t.marks }

def eraseEach : List String → Change Unit
  | [] => return
  | name :: names => do
      put name none
      eraseEach names

/-- Removes the names behind a mark, which must not be past the end of the order. -/
def truncate (mark : Nat) : Change Nat := do
  let t ← get
  if mark ≤ t.order.length then do
    let removed := t.order.drop mark
    modify fun t => { t with order := t.order.take mark }
    eraseEach removed.reverse
    return removed.length
  else throw (.fault (.outOfBounds mark))

def pop : Change Nat := do
  let t ← get
  match t.marks with
  | [] => return 0
  | mark :: marks => do
      modify fun t => { t with marks }
      truncate mark

/-- Closes scopes as long as there are more than `depth`.  Each round closes one. -/
def unwindLoop (depth : Nat) : Nat → Change Nat
  | 0 => return 0
  | rounds + 1 => do
      let t ← get
      if depth < t.marks.length then do
        let removed ← pop
        let more ← unwindLoop depth rounds
        return removed + more
      else return 0

def unwind (depth : Nat) : Change Nat := do
  let t ← get
  unwindLoop depth t.marks.length

end Table

end LineScript
