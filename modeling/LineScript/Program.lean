import LineScript.Line

/-!
# Programs

A program is a sequence of statement lines and a table of labels.  Its lines never change: a run
works on copies of them, so a position of the program also names the same token in every copy of its
line.
-/

namespace LineScript

inductive Stop where
  | error (e : RuntimeError)
  | fault (f : Fault)
  deriving DecidableEq, Repr

/-- A token of a program: its line, counted from 0, and its reference there. -/
structure Position where
  line : Nat
  token : Ref
  deriving DecidableEq, Repr

structure Extent where
  opening : Position
  closing : Position
  deriving DecidableEq, Repr

structure Program where
  lines : List Line := []
  /-- The line that each label marks; the number of lines stands for the end of the program. -/
  labels : List (String × Nat) := []
  /-- The first identity that no token has. -/
  nextId : Nat := 0
  deriving DecidableEq, Repr

def Stop.at (line : Nat) (cause : Cause) : Stop :=
  .error { cause, line }

def orFault {α : Type} (x : Except Fault α) : Except Stop α :=
  x.mapError .fault

namespace Program

def ofLines (lines : List Line) (labels : List (String × Nat)) : Program :=
  let ids := lines.flatMap fun l => l.tokens.map fun t => t.id + 1
  { lines, labels, nextId := ids.foldl max 0 }

def length (p : Program) : Nat :=
  p.lines.length

def label? (p : Program) (name : String) : Option Nat :=
  p.labels.lookup name

def lineAt (p : Program) (index : Nat) : Except Fault Line :=
  match p.lines[index]? with
  | some line => .ok line
  | none => .error (.outOfBounds index)

def tokenAt (p : Program) (pos : Position) : Except Fault Token := do
  let line ← p.lineAt pos.line
  line.get pos.token

/-!
## Positions
-/

def firstCell? : Nat → List Line → Option Position
  | _, [] => none
  | index, line :: rest =>
      match line.first? with
      | some token => some { line := index, token }
      | none => firstCell? (index + 1) rest

/-- The first token at or after the start of a line; empty lines are passed over. -/
def firstFrom? (p : Program) (index : Nat) : Option Position :=
  firstCell? index (p.lines.drop index)

def following (p : Program) (pos : Position) : Except Fault (Option Position) := do
  let line ← p.lineAt pos.line
  let next ← line.next pos.token
  match next with
  | some token => return some { line := pos.line, token }
  | none => return p.firstFrom? (pos.line + 1)

def located (index : Nat) (cells : List Cell) : List (Position × Token) :=
  cells.map fun c => ({ line := index, token := c.ref }, c.token)

def locatedLines : Nat → List Line → List (Position × Token)
  | _, [] => []
  | index, line :: rest => located index line.cells ++ locatedLines (index + 1) rest

def scanFrom (p : Program) (pos : Position) : Except Fault (List (Position × Token)) := do
  let line ← p.lineAt pos.line
  let cells ← line.cellsFrom pos.token
  return located pos.line cells ++ locatedLines (pos.line + 1) (p.lines.drop (pos.line + 1))

/-!
## Blocks
-/

def closeFrom : Nat → List (Position × Token) → Except Fault (Option Position)
  | _, [] => .ok none
  | depth, (pos, token) :: rest =>
      if token.kind = .openBrace then closeFrom (depth + 1) rest
      else if token.kind = .closeBrace then
        match depth with
        | 0 => .error .unopened
        | 1 => .ok (some pos)
        | depth + 1 => closeFrom depth rest
      else closeFrom depth rest

def blockEnd (p : Program) (pos : Position) : Except Stop Position := do
  let found ← orFault (do closeFrom 0 (← p.scanFrom pos))
  match found with
  | some close => return close
  | none =>
      let token ← orFault (p.tokenAt pos)
      throw (.at token.line (.neverClosed "\x7b"))

def isOpenBrace (c : Cell) : Bool :=
  c.token.kind = .openBrace

/-- The `{` of the block that belongs to a keyword or header: the first one on the rest of its line,
else one that starts the next line. -/
def blockStart (p : Program) (pos : Position) : Except Stop Position := do
  let line ← orFault (p.lineAt pos.line)
  let f ← orFault (line.focus pos.token)
  match f.after.find? isOpenBrace with
  | some brace => return { line := pos.line, token := brace.ref }
  | none =>
      let nextLine := (p.lines[pos.line + 1]?).bind fun line => line.cells.head?
      match nextLine.filter isOpenBrace with
      | some brace => return { line := pos.line + 1, token := brace.ref }
      | none => throw (.at f.cell.token.line (.missingBlock f.cell.token.text))

def blockAfter (p : Program) (pos : Position) : Except Stop Extent := do
  let opening ← p.blockStart pos
  let closing ← p.blockEnd opening
  return { opening, closing }

/-!
## Listing
-/

def listLine (index : Nat) (line : Line) : String :=
  let number := toString index
  String.ofList (List.replicate (4 - number.length) ' ') ++ number ++ ": " ++ line.text ++ "\n"

def listFrom : Nat → List Line → String
  | _, [] => ""
  | index, line :: rest => listLine index line ++ listFrom (index + 1) rest

def text (p : Program) : String :=
  listFrom 0 p.lines

end Program

end LineScript
