import LineScript.Lexeme.Scan
import LineScript.Program

/-!
# Drafts

A draft is a program that is being read: the lexemes of a script are gathered into statement lines.
A line break or `;` ends a statement unless a parenthesis is open, a `{` ends the statement that it
closes, and a `}` is a statement of its own.  A label marks the statement that comes next.

Two decisions depend on the token before: a `(` after a name belongs to a call, and a `-` after
something that has a value is a difference, otherwise a negation.
-/

namespace LineScript

/-- What has been read of a program. -/
structure Draft where
  /-- The finished statements. -/
  lines : List Line := []
  /-- The statement being read. -/
  current : Line := {}
  labels : List (String × Nat) := []
  nextId : Nat := 0
  /-- Open parentheses from the innermost one, with their source lines. -/
  parens : List (Bracket × Nat) := []
  /-- Source lines of open braces from the innermost one. -/
  braces : List Nat := []
  /-- The kind of the token before, on the same statement. -/
  previous : Option TokenKind := none
  deriving DecidableEq, Repr

namespace Draft

def put (s : Draft) (kind : TokenKind) (line : Nat) : Draft :=
  { s with
    current := s.current.append (.new kind s.nextId line)
    nextId := s.nextId + 1
    previous := some kind }

def closeLine (s : Draft) : Draft :=
  if s.current.isEmpty then { s with previous := none }
  else { s with lines := s.lines ++ [s.current], current := {}, previous := none }

def afterName (s : Draft) : Bool :=
  match s.previous with
  | some (.name _) => true
  | _ => false

def afterValue (s : Draft) : Bool :=
  match s.previous with
  | some (.literal _) => true
  | some (.template _) => true
  | some (.name _) => true
  | some (.bracket _ .closing) => true
  | _ => false

def requireNoParen (s : Draft) : Except LoadError Unit :=
  match s.parens with
  | [] => .ok ()
  | (_, line) :: _ => .error { cause := .neverClosed "(", line }

def add (s : Draft) (lexeme : Lexeme) (line : Nat) : Except LoadError Draft :=
  match lexeme with
  | .newline => .ok (if s.parens.isEmpty then s.closeLine else s)
  | .semicolon => .ok (if s.parens.isEmpty then s.closeLine else s.put .semicolon line)
  | .label name =>
      let s := s.closeLine
      if (s.labels.lookup name).isSome then .error { cause := .labelTwice name, line }
      else .ok { s with labels := s.labels ++ [(name, s.lines.length)] }
  | .openBrace => do
      s.requireNoParen
      return (({ s with braces := line :: s.braces } : Draft).put .openBrace line).closeLine
  | .closeBrace => do
      s.requireNoParen
      match s.braces with
      | [] => throw { cause := .neverOpened "\x7d", line }
      | _ :: braces =>
          return (({ s with braces } : Draft).closeLine.put .closeBrace line).closeLine
  | .openParen =>
      let bracket : Bracket := if s.afterName then .call else .paren
      .ok (({ s with parens := (bracket, line) :: s.parens } : Draft).put
        (.bracket bracket .opening) line)
  | .closeParen =>
      match s.parens with
      | [] => .error { cause := .neverOpened ")", line }
      | (bracket, _) :: parens =>
          .ok (({ s with parens } : Draft).put (.bracket bracket .closing) line)
  | .operator .sub => .ok (s.put (.operator (if s.afterValue then .sub else .negate)) line)
  | .operator op => .ok (s.put (.operator op) line)
  | .float x => .ok (s.put (.literal (.float x)) line)
  | .integer n => .ok (s.put (.literal (.int n)) line)
  | .string t => .ok (s.put (.literal (.string t)) line)
  | .bool b => .ok (s.put (.literal (.bool b)) line)
  | .null => .ok (s.put (.literal .null) line)
  | .template t => .ok (s.put (.template t) line)
  | .name t => .ok (s.put (.name t) line)
  | .type t => .ok (s.put (.type t) line)
  | .keyword k => .ok (s.put (.keyword k) line)
  | .comma => .ok (s.put .comma line)

def addAll (s : Draft) : List (Lexeme × Nat) → Except LoadError Draft
  | [] => .ok s
  | (lexeme, line) :: rest => do
      let s ← s.add lexeme line
      s.addAll rest

/-- The program, if every bracket is closed.  Of several open ones the innermost parenthesis is
reported first, then the innermost brace. -/
def toProgram (s : Draft) : Except LoadError Program :=
  match s.parens, s.braces with
  | (_, line) :: _, _ => .error { cause := .neverClosed "(", line }
  | [], line :: _ => .error { cause := .neverClosed "\x7b", line }
  | [], [] =>
      let s := s.closeLine
      .ok { lines := s.lines, labels := s.labels, nextId := s.nextId }

end Draft

def Program.ofLexemes (lexemes : List (Lexeme × Nat)) : Except LoadError Program := do
  let s ← ({} : Draft).addAll lexemes
  s.toProgram

def Program.load (source : String) : Except LoadError Program := do
  let lexemes ← lexemes source
  Program.ofLexemes lexemes

end LineScript
