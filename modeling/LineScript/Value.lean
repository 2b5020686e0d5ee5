import LineScript.Number.FloatText

/-!
# Values and their types

A value is a 64-bit integer, a double, a string, a boolean, the one value of the type `null`, or a
reference to a function by its name.  `Value.text` is the form in which values are printed and
concatenated.
-/

namespace LineScript

inductive ValueType where
  | int
  | float
  | string
  | bool
  | null
  | function
  deriving DecidableEq, Repr

inductive Value where
  | int (n : Int64)
  | float (x : Float)
  | string (s : String)
  | bool (b : Bool)
  | null
  | function (name : String)
  deriving DecidableEq, Repr

def ValueType.name : ValueType → String
  | .int => "int"
  | .float => "float"
  | .string => "string"
  | .bool => "bool"
  | .null => "null"
  | .function => "def"

def ValueType.default : ValueType → Value
  | .int => .int 0
  | .float => .float (Float.ofBits 0)
  | .string => .string ""
  | .bool => .bool false
  | .null => .null
  | .function => .function ""

namespace Value

def type : Value → ValueType
  | .int _ => .int
  | .float _ => .float
  | .string _ => .string
  | .bool _ => .bool
  | .null => .null
  | .function _ => .function

def text : Value → String
  | .int n => toString n.toInt
  | .float x => Number.floatText x
  | .string s => s
  | .bool true => "true"
  | .bool false => "false"
  | .null => "null"
  | .function name => "<def " ++ name ++ ">"

def describe (v : Value) : String :=
  v.type.name ++ " '" ++ v.text ++ "'"

def isNumeric : Value → Bool
  | .int _ => true
  | .float _ => true
  | _ => false

def isString : Value → Bool
  | .string _ => true
  | _ => false

/-- Identity of values, but doubles are compared as numbers: NaN differs from itself and the two
zeros are the same. -/
def alike : Value → Value → Bool
  | .float x, .float y => x == y
  | v, w => v = w

@[simp]
theorem type_default (t : ValueType) : t.default.type = t := by
  cases t <;> rfl

end Value

end LineScript
