import LineScript.Machine.Sink
import LineScript.Operator.Arithmetic
import LineScript.Text.Blank

/-!
# Built-in functions

The functions that `system` calls.  Two of them print their arguments and have no result; the others
take one argument and give a value.
-/

namespace LineScript

inductive Builtin where
  | print
  | println
  | length
  | text
  | int
  | float
  | type
  | property
  deriving DecidableEq, Repr

namespace Builtin

def all : List Builtin :=
  [.print, .println, .length, .text, .int, .float, .type, .property]

def name : Builtin → String
  | .print => "print"
  | .println => "println"
  | .length => "len"
  | .text => "str"
  | .int => "int"
  | .float => "float"
  | .type => "type"
  | .property => "property"

def ofName? (name : String) : Option Builtin :=
  all.find? fun n => n.name = name

/-- Writes the texts of values with blanks between them, and then the end, as two pieces: the first
may be in the sink although the second is refused. -/
def printTo (sink : Sink) (args : List Value) (ending : String) :
    Sink × Except Cause (Option Value) :=
  match sink.write (" ".intercalate (args.map Value.text)) with
  | (sink, false) => (sink, .error (.unhandled .writeFailed))
  | (sink, true) =>
      match sink.write ending with
      | (sink, false) => (sink, .error (.unhandled .writeFailed))
      | (sink, true) => (sink, .ok none)

def lengthOfValue : Value → Except Cause Value
  | .string s => (lengthOf s.length).map .int
  | v => .error (.mismatch (.length v))

def toInt : Value → Except Cause Value
  | .int n => .ok (.int n)
  | .float x => (truncateFloat x).map .int
  | .bool b => .ok (.int (if b then 1 else 0))
  | .string s =>
      match Number.readInt? (Text.trim s) with
      | some n => .ok (.int n)
      | none => .error (.unhandled (.notInt s))
  | v => .error (.mismatch (.toInt v))

def toFloat : Value → Except Cause Value
  | .int n => (Value.int n).asFloat.map .float
  | .float x => .ok (.float x)
  | .string s =>
      match Number.readFloat? (Text.trim s) with
      | some x => .ok (.float x)
      | none => .error (.unhandled (.notFloat s))
  | v => .error (.mismatch (.toFloat v))

def propertyValue (properties : List (String × String)) : Value → Except Cause Value
  | .string key =>
      .ok (match properties.lookup key with
        | some s => .string s
        | none => .null)
  | v => .error (.mismatch (.propertyKey v))

def convert (n : Builtin) (properties : List (String × String)) (v : Value) :
    Except Cause (Option Value) :=
  match n with
  | .print => .ok none
  | .println => .ok none
  | .length => (lengthOfValue v).map some
  | .text => .ok (some (.string v.text))
  | .int => (toInt v).map some
  | .float => (toFloat v).map some
  | .type => .ok (some (.string v.type.name))
  | .property => (propertyValue properties v).map some

def run (name : String) (properties : List (String × String)) (args : List Value) (sink : Sink) :
    Sink × Except Cause (Option Value) :=
  match ofName? name with
  | none => (sink, .error (.undefinedFunction name))
  | some .print => printTo sink args ""
  | some .println => printTo sink args "\n"
  | some n =>
      match args with
      | [v] => (sink, n.convert properties v)
      | _ => (sink, .error (.argumentCount name 1 args.length))

end Builtin

end LineScript
