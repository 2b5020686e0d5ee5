import LineScript.Error
import LineScript.Number.Reading

/-!
# Arithmetic on values

Integers are exact or refused: an operation whose result does not fit in 64 bits fails.  Mixed
operands are computed as doubles, which an integer becomes only while it is exactly a double.  A sum
with a string on either side is the concatenation of the two texts.
-/

namespace LineScript

open Number

namespace Value

def asBool : Value → Except Cause Bool
  | .bool b => .ok b
  | v => .error (.mismatch (.notBool v))

def asFloat : Value → Except Cause Float
  | .float x => .ok x
  | .int n =>
      match toFloat? n with
      | some x => .ok x
      | none => .error (.unhandled (.promotion n))
  | v => .error (.mismatch (.notNumber v))

end Value

/-- The fraction of a double dropped, as an integer.  The guard compares with the bounds of 64-bit
integers rounded to doubles, so it lets `2 ^ 63` through, which becomes the largest integer. -/
def truncateFloat (x : Float) : Except Cause Int64 :=
  match dyadic? x with
  | none => .error (.unhandled (.conversion x))
  | some d =>
      let n := d.truncate
      if n < Int64.minValue.toInt ∨ Int64.maxValue.toInt + 1 < n then
        .error (.unhandled (.conversion x))
      else .ok ((narrow? n).getD Int64.maxValue)

def exponentOf (n : Int64) : Except Cause Nat :=
  if 0 ≤ n.toInt ∧ n.toInt < UInt32.size then .ok n.toInt.toNat
  else .error (.unhandled (.exponentRange n))

def lengthOf (n : Nat) : Except Cause Int64 :=
  match narrow? n with
  | some k => .ok k
  | none => .error (.unhandled (.lengthRange n))

/-- An integer power.  Unless the base is 0, 1 or -1 an exponent of 64 or more is out of range. -/
def powInt? (base : Int64) (exponent : Nat) : Option Int64 :=
  let b := base.toInt
  if b.natAbs ≤ 1 then narrow? (if exponent = 0 then 1 else if exponent % 2 = 0 then b * b else b)
  else if 64 ≤ exponent then none
  else narrow? (Int.pow b exponent)

namespace Operator

def onInts (op : Operator) (a b : Int64) : Except Cause Int64 :=
  let fit (n : Int) : Except Cause Int64 :=
    match narrow? n with
    | some k => .ok k
    | none => .error (.unhandled (.overflow op a b))
  match op with
  | .add => fit (a.toInt + b.toInt)
  | .sub => fit (a.toInt - b.toInt)
  | .mul => fit (a.toInt * b.toInt)
  | .div => if b.toInt = 0 then .error .divisionByZero else fit (a.toInt.tdiv b.toInt)
  | .mod =>
      if b.toInt = 0 then .error .divisionByZero
      -- The quotient of the least integer by -1 does not fit, so its remainder is refused too.
      else if (narrow? (a.toInt.tdiv b.toInt)).isNone then
        .error (.unhandled (.overflow op a b))
      else fit (a.toInt.tmod b.toInt)
  | _ => .error (.cannotReduce op.symbol)

def onFloats (op : Operator) (a b : Float) : Except Cause Float :=
  match op with
  | .add => .ok (a + b)
  | .sub => .ok (a - b)
  | .mul => .ok (a * b)
  | .div => if orderKey b = 0 then .error .divisionByZero else .ok (a / b)
  | .mod => .error .floatRemainder
  | _ => .error (.cannotReduce op.symbol)

def arithmetic (op : Operator) (left right : Value) : Except Cause Value :=
  if op = .add && (left.isString || right.isString) then
    .ok (.string (left.text ++ right.text))
  else
    match left, right with
    | .int a, .int b => (op.onInts a b).map .int
    | _, _ =>
        if left.isNumeric && right.isNumeric then do
          let a ← left.asFloat
          let b ← right.asFloat
          let result ← op.onFloats a b
          return .float result
        else .error (.unhandled (.apply op left right))

/-- The operator `**`: exact for integers with a nonnegative exponent, a double otherwise. -/
def power (base exponent : Value) : Except Cause Value :=
  let asFloats : Except Cause Value := do
    let b ← base.asFloat
    let e ← exponent.asFloat
    return .float (b.pow e)
  match base, exponent with
  | .int b, .int e =>
      if e.toInt < 0 then asFloats
      else do
        let n ← exponentOf e
        match powInt? b n with
        | some k => return .int k
        | none => throw (.unhandled (.overflow .pow b e))
  | _, _ =>
      if base.isNumeric && exponent.isNumeric then asFloats
      else .error (.unhandled (.power base exponent))

end Operator

end LineScript
