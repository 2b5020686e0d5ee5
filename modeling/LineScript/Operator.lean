/-!
# Operators

The operators of the language, their spelling and the priority with which they act.  A `-` is
spelled the same as a difference and as a negation; which of the two it is depends on the token
before it.
-/

namespace LineScript

inductive Operator where
  | add
  | sub
  | mul
  | div
  | mod
  | pow
  | equal
  | notEqual
  | less
  | greater
  | lessEqual
  | greaterEqual
  | and
  | or
  | not
  | negate
  | assign
  | addAssign
  | subAssign
  | mulAssign
  | divAssign
  | modAssign
  deriving DecidableEq, Repr

/-!
## Priorities

The token of a line with the highest priority acts first, so these numbers are the precedence of
the language.  Tokens that never act have a priority below all others, also after many boosts.
-/

namespace Priority

def inert : Int := -10000

def deferred : Int := -5

def declaration : Int := -2

def assignment : Int := -1

def system : Int := 0

def logical : Int := 1

def comparison : Int := 2

def additive : Int := 3

def multiplicative : Int := 4

/-- The number below is free for a negation that waits for a power. -/
def power : Int := 6

def unary : Int := 9

def bracket : Int := 10

def template : Int := 11

def control : Int := 50

/-- Added to every token between two brackets when the opening one is first reached. -/
def boost : Int := 100

end Priority

namespace Operator

def priority : Operator → Int
  | .not | .negate => Priority.unary
  | .pow => Priority.power
  | .mul | .div | .mod => Priority.multiplicative
  | .add | .sub => Priority.additive
  | .equal | .notEqual | .less | .greater | .lessEqual | .greaterEqual => Priority.comparison
  | .and | .or => Priority.logical
  | .assign | .addAssign | .subAssign | .mulAssign | .divAssign | .modAssign =>
      Priority.assignment

def isUnary : Operator → Bool
  | .not | .negate => true
  | _ => false

def operation? : Operator → Option Operator
  | .addAssign => some .add
  | .subAssign => some .sub
  | .mulAssign => some .mul
  | .divAssign => some .div
  | .modAssign => some .mod
  | _ => none

def isAssignment (op : Operator) : Bool :=
  op = .assign || op.operation?.isSome

def symbol : Operator → String
  | .add => "+"
  | .sub => "-"
  | .mul => "*"
  | .div => "/"
  | .mod => "%"
  | .pow => "**"
  | .equal => "=="
  | .notEqual => "!="
  | .less => "<"
  | .greater => ">"
  | .lessEqual => "<="
  | .greaterEqual => ">="
  | .and => "&&"
  | .or => "||"
  | .not => "!"
  | .negate => "-"
  | .assign => "="
  | .addAssign => "+="
  | .subAssign => "-="
  | .mulAssign => "*="
  | .divAssign => "/="
  | .modAssign => "%="

end Operator

end LineScript
