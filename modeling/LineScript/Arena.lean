import LineScript.Line

/-!
# Lines in slots

An arena keeps the tokens of a line in slots, one for each reference that it has given out, and
links the slots that are in use in both directions.  A token that is removed leaves its slot empty,
and the slot is not used again.  Every operation follows links and rewrites them; one that comes to
an empty slot stops with a fault, and what it has changed by then stays changed.
-/

namespace LineScript

structure Node where
  token : Token
  prev : Option Ref
  next : Option Ref
  deriving DecidableEq, Repr

structure Arena where
  slots : Array (Option Node) := #[]
  head : Option Ref := none
  tail : Option Ref := none
  deriving DecidableEq, Repr

/-- What a sum of priorities outside of 32 bits comes to. -/
inductive Overflow where
  | wraps
  | stops
  deriving DecidableEq, Repr

def Token.raised (amount : Int32) (t : Token) : Token :=
  { t with priority := (Int32.ofInt t.priority + amount).toInt }

def Token.raise (o : Overflow) (amount : Int32) (t : Token) : Except Fault Token :=
  if o = .stops ∧ (t.raised amount).priority ≠ t.priority + amount.toInt then .error .overflow
  else .ok (t.raised amount)

namespace Arena

/-!
## Looking at slots
-/

def slot? (a : Arena) (r : Ref) : Option Node :=
  a.slots[r]?.join

def contains (a : Arena) (r : Ref) : Bool :=
  (a.slot? r).isSome

def find (a : Arena) (r : Ref) : Except Fault Node :=
  match a.slot? r with
  | some node => .ok node
  | none => .error (.unlinked r)

protected def get (a : Arena) (r : Ref) : Except Fault Token :=
  (a.find r).map Node.token

protected def next (a : Arena) (r : Ref) : Except Fault (Option Ref) :=
  (a.find r).map Node.next

protected def prev (a : Arena) (r : Ref) : Except Fault (Option Ref) :=
  (a.find r).map Node.prev

/-- The cells that a walk over the next ones meets.  An arena without a cycle has no more of them
than slots. -/
def walk (a : Arena) : Nat → Option Ref → Except Fault (List Cell)
  | _, none => .ok []
  | 0, some _ => .error .endless
  | fuel + 1, some r => do
      let node ← a.find r
      return { ref := r, token := node.token } :: (← a.walk fuel node.next)

def cells (a : Arena) : Except Fault (List Cell) :=
  a.walk a.slots.size a.head

/-!
## Changing slots and links
-/

abbrev Change := EStateM Fault Arena

def node (r : Ref) : Change Node := do
  match (← get).find r with
  | .ok node => return node
  | .error fault => throw fault

def put (r : Ref) (node? : Option Node) : Change Unit :=
  modify fun a => { a with slots := a.slots.setIfInBounds r node? }

def alloc (token : Token) (prev next : Option Ref) : Change Ref := do
  let a ← get
  if a.slots.size < UInt32.size then
    set { a with slots := a.slots.push (some { token, prev, next }) }
    return a.slots.size
  else throw .full

def setNext (at? next : Option Ref) : Change Unit :=
  match at? with
  | none => modify fun a => { a with head := next }
  | some r => do
      let n ← node r
      put r (some { n with next })

def setPrev (at? prev : Option Ref) : Change Unit :=
  match at? with
  | none => modify fun a => { a with tail := prev }
  | some r => do
      let n ← node r
      put r (some { n with prev })

def unlink (r : Ref) : Change Node := do
  let n ← node r
  put r none
  setNext n.prev n.next
  setPrev n.next n.prev
  return n

def setToken (r : Ref) (change : Token → Except Fault Token) : Change Token := do
  let n ← node r
  match change n.token with
  | .ok token =>
      put r (some { n with token })
      return n.token
  | .error fault => throw fault

/-!
## Operations

Those that add a token return its reference, and those that remove or replace one return it.
-/

def append (t : Token) : Change Ref := do
  let last := (← get).tail
  let new ← alloc t last none
  setNext last (some new)
  modify fun a => { a with tail := some new }
  return new

def insertBefore (r : Ref) (t : Token) : Change Ref := do
  let before := (← node r).prev
  let new ← alloc t before (some r)
  setPrev (some r) (some new)
  setNext before (some new)
  return new

def insertAfter (r : Ref) (t : Token) : Change Ref := do
  let after := (← node r).next
  let new ← alloc t (some r) after
  setNext (some r) (some new)
  setPrev after (some new)
  return new

/-- Puts a token at an index, which may be the length of the line. -/
def insertAt (index : Nat) (t : Token) : Change Ref := do
  match (← get).cells with
  | .error fault => throw fault
  | .ok cells =>
      match cells[index]? with
      | some c => insertBefore c.ref t
      | none => if index = cells.length then append t else throw (.outOfBounds index)

def remove (r : Ref) : Change Token := do
  return (← unlink r).token

def replace (r : Ref) (t : Token) : Change Token :=
  setToken r fun _ => .ok t

def setPriority (r : Ref) (priority : Int32) : Change Token :=
  setToken r fun t => .ok { t with priority := priority.toInt }

/-- Unlinks tokens from one to the end.  Each round empties a slot, so with as much fuel as there
are slots none is left in the last round. -/
def dropFromLoop : Nat → Option Ref → Change Unit
  | _, none => return
  | 0, some r => throw (.unlinked r)
  | fuel + 1, some r => do
      let after := (← node r).next
      let _ ← unlink r
      dropFromLoop fuel after

def dropFrom (r : Ref) : Change Unit := do
  dropFromLoop (← get).slots.size (some r)

def dropThroughLoop (r : Ref) : Nat → Change Unit
  | 0 => do
      match (← get).head with
      | none => return
      | some first => throw (.unlinked first)
  | fuel + 1 => do
      match (← get).head with
      | none => return
      | some first => do
          let _ ← unlink first
          if first = r then return else dropThroughLoop r fuel

def dropThrough (r : Ref) : Change Unit := do
  dropThroughLoop r (← get).slots.size

def ifSome (r? : Option Ref) (change : Ref → Change Unit) : Change Unit :=
  match r? with
  | some r => change r
  | none => pure ()

def dropBefore (r : Ref) : Change Unit := do
  ifSome (← node r).prev dropThrough

def keepRange (first last : Ref) : Change Unit := do
  dropBefore first
  ifSome (← node last).next dropFrom

def clear : Change Unit :=
  modify fun a => { slots := a.slots.map fun _ => none, head := none, tail := none }

def boostLoop (o : Overflow) (closing : Ref) (amount : Int32) : Nat → Option Ref → Change Unit
  | _, none => return
  | 0, some r => if r = closing then return else throw .endless
  | fuel + 1, some r =>
      if r = closing then return
      else do
        let _ ← setToken r (Token.raise o amount)
        boostLoop o closing amount fuel (← node r).next

def boostInside (o : Overflow) (opening closing : Ref) (amount : Int32) : Change Unit := do
  let start := (← node opening).next
  boostLoop o closing amount (← get).slots.size start

end Arena

end LineScript
