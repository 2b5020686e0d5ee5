import LineScript.Token

/-!
# Lines of tokens

A line is a sequence of cells.  A cell pairs a token with a reference that the line gave it when the
token came in; references are never given twice, so one that was removed names nothing for ever
after, and a copy of a line keeps all of them.

Operations that take a reference fail with `Fault.unlinked` when it names no cell.  Two of them
never look for a place of their own and therefore never fail for it: `dropThrough` drops cells from
the front until it has dropped the named one, and `boostInside` walks until it meets the second
reference.
-/

namespace LineScript

abbrev Ref := Nat

/-- A use of a line or program that no script should be able to cause. -/
inductive Fault where
  | unlinked (ref : Ref)
  | outOfBounds (index : Nat)
  /-- A scan for a closing bracket meets one before any opening one. -/
  | unopened
  /-- A depth is lowered from zero. -/
  | underflow
  /-- There is no reference left for a new token. -/
  | full
  /-- A priority does not fit 32 bits. -/
  | overflow
  /-- A walk over a line comes to no end. -/
  | endless
  deriving DecidableEq, Repr

structure Cell where
  ref : Ref
  token : Token
  deriving DecidableEq, Repr

structure Line where
  cells : List Cell := []
  /-- The reference of the next new cell. -/
  nextRef : Ref := 0
  deriving DecidableEq, Repr

/-- A line seen from one of its cells.  The cells before it are listed from the nearest one. -/
structure Focus where
  before : List Cell
  cell : Cell
  after : List Cell
  deriving DecidableEq, Repr

namespace Focus

def cells (f : Focus) : List Cell :=
  f.before.reverse ++ f.cell :: f.after

def next? (f : Focus) : Option Cell :=
  f.after.head?

def prev? (f : Focus) : Option Cell :=
  f.before.head?

def nextName? (f : Focus) : Option String :=
  f.next?.bind fun c => c.token.kind.name?

def find? (r : Ref) : List Cell → List Cell → Option Focus
  | _, [] => none
  | before, c :: after =>
      if c.ref = r then some { before, cell := c, after } else find? r (c :: before) after

theorem ref_find? {r : Ref} {before cells : List Cell} {f : Focus}
    (found : find? r before cells = some f) : f.cell.ref = r := by
  induction cells generalizing before with
  | nil => cases found
  | cons c after ih =>
      by_cases here : c.ref = r
      · simp only [find?, here, if_true, Option.some.injEq] at found
        rw [← found]
        exact here
      · simp only [find?, here, if_false] at found
        exact ih found

theorem cells_find? {r : Ref} {before cells : List Cell} {f : Focus}
    (found : find? r before cells = some f) : f.cells = before.reverse ++ cells := by
  induction cells generalizing before with
  | nil => cases found
  | cons c after ih =>
      by_cases here : c.ref = r
      · simp only [find?, here, if_true, Option.some.injEq] at found
        rw [← found]
        rfl
      · simp only [find?, here, if_false] at found
        rw [ih found]
        simp

theorem find?_eq_none_iff {r : Ref} {before cells : List Cell} :
    find? r before cells = none ↔ ∀ c ∈ cells, c.ref ≠ r := by
  induction cells generalizing before with
  | nil => simp [find?]
  | cons c after ih => by_cases here : c.ref = r <;> simp [find?, here, ih]

end Focus

namespace Line

/-!
## Views
-/

def isEmpty (l : Line) : Bool :=
  l.cells.isEmpty

def length (l : Line) : Nat :=
  l.cells.length

def refs (l : Line) : List Ref :=
  l.cells.map Cell.ref

def tokens (l : Line) : List Token :=
  l.cells.map Cell.token

def contains (l : Line) (r : Ref) : Bool :=
  l.cells.any fun c => c.ref = r

def first? (l : Line) : Option Ref :=
  l.cells.head?.map Cell.ref

def last? (l : Line) : Option Ref :=
  l.cells.getLast?.map Cell.ref

def text (l : Line) : String :=
  " ".intercalate (l.tokens.map Token.text)

def focus? (l : Line) (r : Ref) : Option Focus :=
  Focus.find? r [] l.cells

/-- The cell that a reference names.  No edit makes a line with two cells of one reference; there a
look-up fails, so that an edit that succeeds has changed the one cell that it names. -/
def focus (l : Line) (r : Ref) : Except Fault Focus :=
  match l.focus? r with
  | some f => if f.after.any fun c => c.ref = r then .error (.unlinked r) else .ok f
  | none => .error (.unlinked r)

theorem cells_focus? {l : Line} {r : Ref} {f : Focus} (found : l.focus? r = some f) :
    f.cells = l.cells := by
  simpa using Focus.cells_find? found

theorem ref_focus? {l : Line} {r : Ref} {f : Focus} (found : l.focus? r = some f) :
    f.cell.ref = r :=
  Focus.ref_find? found

theorem focus?_eq_none_iff {l : Line} {r : Ref} : l.focus? r = none ↔ r ∉ l.refs := by
  simp [focus?, Focus.find?_eq_none_iff, refs]

def get (l : Line) (r : Ref) : Except Fault Token :=
  (l.focus r).map fun f => f.cell.token

def next (l : Line) (r : Ref) : Except Fault (Option Ref) :=
  (l.focus r).map fun f => f.next?.map Cell.ref

def prev (l : Line) (r : Ref) : Except Fault (Option Ref) :=
  (l.focus r).map fun f => f.prev?.map Cell.ref

def indexOf? (l : Line) (r : Ref) : Option Nat :=
  l.cells.findIdx? fun c => c.ref = r

def refOfId? (l : Line) (id : Nat) : Option Ref :=
  (l.cells.find? fun c => c.token.id = id).map Cell.ref

def cellsFrom (l : Line) (r : Ref) : Except Fault (List Cell) :=
  (l.focus r).map fun f => f.cell :: f.after

def takeThrough (r : Ref) : List Cell → List Cell
  | [] => []
  | c :: cs => if c.ref = r then [c] else c :: takeThrough r cs

def between (l : Line) (first last : Ref) : Except Fault (List Cell) :=
  (l.cellsFrom first).map (takeThrough last)

def alike (l m : Line) : Bool :=
  l.nextRef = m.nextRef && l.refs = m.refs &&
    (l.tokens.zip m.tokens).all fun (t, u) => t.alike u

/-!
## The token that acts next
-/

def dominant (best c : Cell) : Cell :=
  if best.token.priority < c.token.priority then c else best

/-- The cell to act on: a brace at the start of the line, else the leftmost cell of the highest
priority. -/
def highest? (l : Line) : Option Ref :=
  match l.cells with
  | [] => none
  | c :: cs => if c.token.kind.isScopeBracket then some c.ref else some (cs.foldl dominant c).ref

/-!
## Brackets
-/

/-- Splits cells at the bracket that closes the opening one at their front.  `depth` counts the open
brackets of the same kind. -/
def scanClose (b : Bracket) : Nat → List Cell → Except Fault (Option (List Cell × Cell × List Cell))
  | _, [] => .ok none
  | depth, c :: cs =>
      let onward (depth : Nat) :=
        (scanClose b depth cs).map (Option.map fun (inner, close, rest) =>
          (c :: inner, close, rest))
      if c.token.kind = .bracket b .opening then onward (depth + 1)
      else if c.token.kind = .bracket b .closing then
        match depth with
        | 0 => .error .unopened
        | 1 => .ok (some ([], c, cs))
        | depth + 1 => onward depth
      else onward depth

def enclosed (b : Bracket) (opening : Cell) (after : List Cell) :
    Except Fault (Option (List Cell × Cell × List Cell)) :=
  (scanClose b 0 (opening :: after)).map
    (Option.map fun (inner, close, rest) => (inner.tail, close, rest))

def closerOf (l : Line) (r : Ref) : Except Fault (Option Ref) := do
  let f ← l.focus r
  match f.cell.token.kind with
  | .bracket b .opening =>
      return (← enclosed b f.cell f.after).map fun (_, close, _) => close.ref
  | _ => return none

/-!
## Operations
-/

def withCells (l : Line) (cells : List Cell) : Line :=
  { l with cells }

def newCell (l : Line) (t : Token) : Cell × Line :=
  ({ ref := l.nextRef, token := t }, { l with nextRef := l.nextRef + 1 })

def append (l : Line) (t : Token) : Line :=
  let (c, l') := l.newCell t
  l'.withCells (l.cells ++ [c])

@[simp] theorem tokens_append (l : Line) (t : Token) : (l.append t).tokens = l.tokens ++ [t] := by
  simp [append, tokens, newCell, withCells]

@[simp] theorem refs_append (l : Line) (t : Token) : (l.append t).refs = l.refs ++ [l.nextRef] := by
  simp [append, refs, newCell, withCells]

def ofTokens (ts : List Token) : Line :=
  ts.foldl append {}

def insertBefore (l : Line) (r : Ref) (t : Token) : Except Fault Line :=
  (l.focus r).map fun f =>
    let (c, l') := l.newCell t
    l'.withCells ({ f with before := c :: f.before } : Focus).cells

def insertAfter (l : Line) (r : Ref) (t : Token) : Except Fault Line :=
  (l.focus r).map fun f =>
    let (c, l') := l.newCell t
    l'.withCells ({ f with after := c :: f.after } : Focus).cells

def insertAt (l : Line) (index : Nat) (t : Token) : Except Fault Line :=
  if index ≤ l.length then
    let (c, l') := l.newCell t
    .ok (l'.withCells (l.cells.take index ++ c :: l.cells.drop index))
  else .error (.outOfBounds index)

def remove (l : Line) (r : Ref) : Except Fault Line :=
  (l.focus r).map fun f => l.withCells (f.before.reverse ++ f.after)

def modify (l : Line) (r : Ref) (change : Token → Token) : Except Fault Line :=
  (l.focus r).map fun f =>
    l.withCells ({ f with cell := { f.cell with token := change f.cell.token } } : Focus).cells

def replace (l : Line) (r : Ref) (t : Token) : Except Fault Line :=
  l.modify r fun _ => t

def setPriority (l : Line) (r : Ref) (priority : Int) : Except Fault Line :=
  l.modify r fun t => { t with priority }

def dropFollowing (start last : Ref) : Nat → Line → Except Fault Line
  | 0, _ => .error .endless
  | fuel + 1, l => do
      match ← l.next start with
      | none => return l
      | some r =>
          let l ← l.remove r
          if r = last then return l else dropFollowing start last fuel l

def dropAfter (l : Line) (start last : Ref) : Except Fault Line :=
  dropFollowing start last (l.length + 1) l

def dropFrom (l : Line) (r : Ref) : Except Fault Line :=
  (l.focus r).map fun f => l.withCells f.before.reverse

def dropThrough (l : Line) (r : Ref) : Line :=
  l.withCells ((l.cells.dropWhile fun c => c.ref ≠ r).drop 1)

def dropBefore (l : Line) (r : Ref) : Except Fault Line :=
  (l.cellsFrom r).map l.withCells

def keepRange (l : Line) (first last : Ref) : Except Fault Line := do
  let started ← l.dropBefore first
  let f ← started.focus last
  return l.withCells (f.before.reverse ++ [f.cell])

def clear (l : Line) : Line :=
  l.withCells []

def boostCell (amount : Int) (c : Cell) : Cell :=
  { c with token := c.token.boost amount }

def boostUntil (closing : Ref) (amount : Int) : List Cell → List Cell
  | [] => []
  | c :: cs => if c.ref = closing then c :: cs
      else boostCell amount c :: boostUntil closing amount cs

def boostInside (l : Line) (opening closing : Ref) (amount : Int) : Except Fault Line :=
  (l.focus opening).map fun f =>
    l.withCells ({ f with after := boostUntil closing amount f.after } : Focus).cells

end Line

end LineScript
