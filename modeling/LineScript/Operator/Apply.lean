import LineScript.Operator.Comparison

/-!
# Applying an operator

The value of an operator at its operands.  The logical operators look at their right operand only
when the left one does not decide.
-/

namespace LineScript.Operator

open Number

def logic (op : Operator) (left right : Value) : Except Cause Value :=
  match op with
  | .and => do
      let a ← left.asBool
      if a then return .bool (← right.asBool) else return .bool false
  | .or => do
      let a ← left.asBool
      if a then return .bool true else return .bool (← right.asBool)
  | _ => .error (.cannotReduce op.symbol)

def applyBetween (op : Operator) (left right : Value) : Except Cause Value :=
  match op with
  | .add | .sub | .mul | .div | .mod => op.arithmetic left right
  | .pow => power left right
  | .equal | .notEqual | .less | .greater | .lessEqual | .greaterEqual =>
      op.comparison left right
  | .and | .or => op.logic left right
  | _ => .error (.cannotReduce op.symbol)

def negation : Value → Except Cause Value
  | .int n =>
      match narrow? (-n.toInt) with
      | some k => .ok (.int k)
      | none => .error (.unhandled (.negateOverflow n))
  | .float x => .ok (.float (-x))
  | v => .error (.unhandled (.negate v))

def applyBefore (op : Operator) (operand : Value) : Except Cause Value :=
  match op with
  | .negate => negation operand
  | .not => do return .bool !(← operand.asBool)
  | _ => .error (.cannotReduce op.symbol)

end LineScript.Operator
