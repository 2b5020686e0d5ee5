import LineScript.Error
import LineScript.Text.Quoted

/-!
# Tokens

A statement is a sequence of tokens.  Besides its kind a token has a priority, which grows while the
token stands between brackets that are being reduced, an identity, and the source line it came from.
-/

namespace LineScript

inductive Bracket where
  | paren
  | call
  | scope
  deriving DecidableEq, Repr

inductive Side where
  | opening
  | closing
  deriving DecidableEq, Repr

inductive TokenKind where
  | literal (value : Value)
  /-- A string with placeholders that is still to be expanded. -/
  | template (text : String)
  | name (text : String)
  | type (type : ValueType)
  | operator (op : Operator)
  | bracket (bracket : Bracket) (side : Side)
  | keyword (keyword : Keyword)
  | signal (signal : Signal)
  | comma
  | semicolon
  deriving DecidableEq, Repr

namespace TokenKind

def openBrace : TokenKind := .bracket .scope .opening

def closeBrace : TokenKind := .bracket .scope .closing

def basePriority : TokenKind → Int
  | .operator op => op.priority
  | .keyword k => k.priority
  | .bracket .paren .opening => Priority.bracket
  | .bracket .call .opening => Priority.bracket
  | .template _ => Priority.template
  | .type _ => Priority.declaration
  | _ => Priority.inert

def isOperand : TokenKind → Bool
  | .literal _ => true
  | .name _ => true
  | _ => false

/-- Tokens that never act. -/
def isInert : TokenKind → Bool
  | .literal _ => true
  | .name _ => true
  | .signal _ => true
  | .comma => true
  | .semicolon => true
  | .bracket .paren .closing => true
  | .bracket .call .closing => true
  | _ => false

def name? : TokenKind → Option String
  | .name s => some s
  | _ => none

def isScopeBracket : TokenKind → Bool
  | .bracket .scope _ => true
  | _ => false

def text : TokenKind → String
  | .literal (.string s) => Text.quote s
  | .literal v => v.text
  | .template s => "f" ++ Text.quote s
  | .name s => s
  | .type t => t.name
  | .operator op => op.symbol
  | .bracket .scope .opening => "\x7b"
  | .bracket .scope .closing => "\x7d"
  | .bracket _ .opening => "("
  | .bracket _ .closing => ")"
  | .keyword k => k.word
  | .signal s => s.word
  | .comma => ","
  | .semicolon => ";"

def alike : TokenKind → TokenKind → Bool
  | .literal v, .literal w => v.alike w
  | k, l => k = l

end TokenKind

structure Token where
  kind : TokenKind
  priority : Int
  /-- Kept by every copy of the token. -/
  id : Nat
  line : Nat
  /-- Set once an opening bracket has boosted what it encloses. -/
  expanded : Bool
  deriving DecidableEq, Repr

namespace Token

def new (kind : TokenKind) (id line : Nat) : Token :=
  { kind, priority := kind.basePriority, id, line, expanded := false }

def literal (value : Value) (id line : Nat) : Token :=
  new (.literal value) id line

def text (t : Token) : String :=
  t.kind.text

def boost (amount : Int) (t : Token) : Token :=
  { t with priority := t.priority + amount }

def stray (t : Token) : RuntimeError :=
  { cause := .cannotReduce t.text, line := t.line }

def alike (t u : Token) : Bool :=
  t.kind.alike u.kind && t.priority = u.priority && t.id = u.id && t.line = u.line &&
    t.expanded = u.expanded

end Token

end LineScript
