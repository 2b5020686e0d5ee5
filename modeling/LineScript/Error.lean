import LineScript.Keyword
import LineScript.Value

/-!
# Errors

Why a script cannot be loaded and why a run stops.  A cause keeps the values it is about; the
wording of every message is in this module.  An error is a cause with the source line that messages
report.
-/

namespace LineScript

inductive ErrorKind where
  | lexical
  | stray
  | unbalanced
  | noBlock
  | noVariable
  | secondVariable
  | wrongType
  | noFunction
  | secondFunction
  | argumentCount
  | noLabel
  | secondLabel
  | noGoto
  | noCall
  | zeroDivisor
  | noResult
  | unsupported
  deriving DecidableEq, Repr

/-!
## Loading
-/

inductive LoadCause where
  /-- No lexeme starts here, or a literal is refused. -/
  | unrecognized (text : String)
  | neverClosed (bracket : String)
  | neverOpened (bracket : String)
  | labelTwice (name : String)
  deriving DecidableEq, Repr

structure LoadError where
  cause : LoadCause
  line : Nat
  deriving DecidableEq, Repr

def LoadCause.kind : LoadCause → ErrorKind
  | .unrecognized _ => .lexical
  | .neverClosed _ => .unbalanced
  | .neverOpened _ => .unbalanced
  | .labelTwice _ => .secondLabel

def LoadCause.text : LoadCause → String
  | .unrecognized text => "Unrecognized input '" ++ text ++ "'"
  | .neverClosed bracket => "Bracket '" ++ bracket ++ "' is never closed"
  | .neverOpened bracket => "Closing '" ++ bracket ++ "' has no matching opening bracket"
  | .labelTwice name => "Label '@" ++ name ++ "' is already defined"

def messageAt (line : Nat) (text : String) : String :=
  "Error on line " ++ toString line ++ ": " ++ text ++ "."

def LoadError.kind (e : LoadError) : ErrorKind :=
  e.cause.kind

def LoadError.message (e : LoadError) : String :=
  messageAt e.line e.cause.text

/-!
## Running
-/

inductive Mismatch where
  | notBool (found : Value)
  | notNumber (found : Value)
  | initial (declared : ValueType) (name : String) (found : Value)
  | assigned (declared : ValueType) (name : String) (found : Value)
  | condition (found : Value)
  | argument (parameter function : String) (declared : ValueType) (found : Value)
  | returned (function : String) (declared : ValueType) (found : Value)
  | noReturn (function : String) (declared : ValueType)
  | length (found : Value)
  | toInt (found : Value)
  | toFloat (found : Value)
  | propertyKey (found : Value)
  deriving DecidableEq, Repr

def Mismatch.text : Mismatch → String
  | .notBool found => "expected bool but found " ++ found.describe
  | .notNumber found => "expected a number but found " ++ found.describe
  | .initial declared name found =>
      "cannot initialize " ++ declared.name ++ " '" ++ name ++ "' with " ++ found.describe
  | .assigned declared name found =>
      "cannot assign " ++ found.describe ++ " to " ++ declared.name ++ " '" ++ name ++ "'"
  | .condition found => "if condition must be bool but is " ++ found.describe
  | .argument parameter function declared found =>
      "parameter '" ++ parameter ++ "' of '" ++ function ++ "' expects " ++ declared.name ++
        " but got " ++ found.describe
  | .returned function declared found =>
      "'" ++ function ++ "' must return " ++ declared.name ++ " but returned " ++ found.describe
  | .noReturn function declared =>
      "'" ++ function ++ "' reached the end of its body without returning " ++ declared.name
  | .length found => "len expects a string but got " ++ found.describe
  | .toInt found => "cannot convert " ++ found.describe ++ " to int"
  | .toFloat found => "cannot convert " ++ found.describe ++ " to float"
  | .propertyKey found => "property expects a string key but got " ++ found.describe

inductive Unhandled where
  | apply (op : Operator) (left right : Value)
  | compare (op : Operator) (left right : Value)
  | power (base exponent : Value)
  | negate (operand : Value)
  | overflow (op : Operator) (left right : Int64)
  | negateOverflow (n : Int64)
  | promotion (n : Int64)
  | exponentRange (n : Int64)
  | lengthRange (n : Nat)
  | conversion (x : Float)
  | notInt (s : String)
  | notFloat (s : String)
  | writeFailed
  | flushFailed
  | outsideLoop (signal : Signal)
  deriving DecidableEq, Repr

def Unhandled.text : Unhandled → String
  | .apply op left right =>
      "cannot apply '" ++ op.symbol ++ "' to " ++ left.describe ++ " and " ++ right.describe
  | .compare op left right =>
      "cannot compare " ++ left.describe ++ " " ++ op.symbol ++ " " ++ right.describe
  | .power base exponent => "cannot raise " ++ base.describe ++ " to " ++ exponent.describe
  | .negate operand => "cannot negate " ++ operand.describe
  | .overflow op left right =>
      "integer overflow in " ++ toString left.toInt ++ " " ++ op.symbol ++ " " ++
        toString right.toInt
  | .negateOverflow n => "integer overflow in -" ++ toString n.toInt
  | .promotion n => toString n.toInt ++ " cannot be promoted to float"
  | .exponentRange n => "exponent " ++ toString n.toInt ++ " is out of range"
  | .lengthRange n => "length " ++ toString n ++ " is out of range"
  | .conversion x => Number.plainText x ++ " cannot be converted to int"
  | .notInt s => "'" ++ s ++ "' is not an int"
  | .notFloat s => "'" ++ s ++ "' is not a float"
  | .writeFailed => "cannot write output: sink is full"
  | .flushFailed => "cannot flush output: sink is full"
  | .outsideLoop signal => "'" ++ signal.word ++ "' outside of a loop"

inductive Cause where
  /-- A token that cannot act, or be used, where it stands. -/
  | cannotReduce (token : String)
  | neverClosed (bracket : String)
  | missingBlock (keyword : String)
  | undeclared (name : String)
  | redeclared (name : String)
  | mismatch (what : Mismatch)
  | undefinedFunction (name : String)
  | functionTwice (name : String)
  | argumentCount (name : String) (expected found : Nat)
  | undefinedLabel (name : String)
  | noGoto
  | noCall
  | divisionByZero
  | unhandled (what : Unhandled)
  /-- The remainder of floats is not part of the language. -/
  | floatRemainder
  deriving DecidableEq, Repr

structure RuntimeError where
  cause : Cause
  line : Nat
  deriving DecidableEq, Repr

def Cause.kind : Cause → ErrorKind
  | .cannotReduce _ => .stray
  | .neverClosed _ => .unbalanced
  | .missingBlock _ => .noBlock
  | .undeclared _ => .noVariable
  | .redeclared _ => .secondVariable
  | .mismatch _ => .wrongType
  | .undefinedFunction _ => .noFunction
  | .functionTwice _ => .secondFunction
  | .argumentCount _ _ _ => .argumentCount
  | .undefinedLabel _ => .noLabel
  | .noGoto => .noGoto
  | .noCall => .noCall
  | .divisionByZero => .zeroDivisor
  | .unhandled _ => .noResult
  | .floatRemainder => .unsupported

def Cause.text : Cause → String
  | .cannotReduce token => "Cannot reduce '" ++ token ++ "' here"
  | .neverClosed bracket => "Bracket '" ++ bracket ++ "' is never closed"
  | .missingBlock keyword => "'" ++ keyword ++ "' must be followed by a block"
  | .undeclared name => "Undeclared variable '" ++ name ++ "'"
  | .redeclared name => "Variable '" ++ name ++ "' is already declared"
  | .mismatch what => "Type mismatch: " ++ what.text
  | .undefinedFunction name => "Undefined function '" ++ name ++ "'"
  | .functionTwice name => "Function '" ++ name ++ "' is already defined"
  | .argumentCount name expected found =>
      "'" ++ name ++ "' expects " ++ toString expected ++ " argument(s) but got " ++ toString found
  | .undefinedLabel name => "Undefined label '@" ++ name ++ "'"
  | .noGoto => "'goback' without a preceding 'goto'"
  | .noCall => "'return' outside of a function call"
  | .divisionByZero => "Division by zero"
  | .unhandled what => "Unhandled operation: " ++ what.text
  | .floatRemainder => "Unimplemented operation: '%' on float operands"

def RuntimeError.kind (e : RuntimeError) : ErrorKind :=
  e.cause.kind

def RuntimeError.message (e : RuntimeError) : String :=
  messageAt e.line e.cause.text

end LineScript
