import LineScript.Operator.Arithmetic

/-!
# Comparison of values

Integers are compared exactly, strings by code points, and numbers of two types as doubles.
Equality also relates values of different types; an order between such values is refused.
-/

namespace LineScript.Operator

open Number

def equality (left right : Value) : Except Cause Bool :=
  match left, right with
  | .int a, .int b => .ok (a = b)
  | _, _ =>
      if left.isNumeric && right.isNumeric then do
        let a ← left.asFloat
        let b ← right.asFloat
        return compareFloats a b = .eq
      else .ok (left = right)

def order? (left right : Value) : Option Ordering :=
  match left, right with
  | .int a, .int b => some (compare a.toInt b.toInt)
  | .string a, .string b => some (compare a b)
  | _, _ =>
      if left.isNumeric && right.isNumeric then
        match left.asFloat, right.asFloat with
        | .ok a, .ok b => some (compareFloats a b)
        | _, _ => none
      else none

def holds? (op : Operator) (ordering : Ordering) : Option Bool :=
  match op with
  | .less => some (ordering = .lt)
  | .greater => some (ordering = .gt)
  | .lessEqual => some (ordering ≠ .gt)
  | .greaterEqual => some (ordering ≠ .lt)
  | _ => none

def comparison (op : Operator) (left right : Value) : Except Cause Value :=
  match op with
  | .equal => (equality left right).map .bool
  | .notEqual => (equality left right).map fun b => .bool !b
  | _ =>
      match order? left right with
      | none => .error (.unhandled (.compare op left right))
      | some ordering =>
          match op.holds? ordering with
          | some b => .ok (.bool b)
          | none => .error (.cannotReduce op.symbol)

end LineScript.Operator
