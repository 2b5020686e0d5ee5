/-!
# Reading numbers

Decimal integers that fit in 64 bits, and decimal floats with an optional point and exponent.
-/

namespace LineScript.Number

def narrow? (n : Int) : Option Int64 :=
  if Int64.minValue.toInt ≤ n ∧ n ≤ Int64.maxValue.toInt then some (Int64.ofInt n) else none

def isDigit (c : Char) : Bool :=
  '0' ≤ c && c ≤ '9'

def digitValue (c : Char) : Nat :=
  c.toNat - '0'.toNat

def natOfDigits (cs : List Char) : Nat :=
  cs.foldl (fun n c => 10 * n + digitValue c) 0

def digits? (cs : List Char) : Option Nat :=
  if cs.isEmpty || !cs.all isDigit then none else some (natOfDigits cs)

def splitSign : List Char → Bool × List Char
  | '-' :: rest => (true, rest)
  | '+' :: rest => (false, rest)
  | rest => (false, rest)

def signed (negative : Bool) (n : Nat) : Int :=
  if negative then -(n : Int) else n

def readInt? (s : String) : Option Int64 :=
  let (negative, body) := splitSign s.toList
  (digits? body).bind fun n => narrow? (signed negative n)

/-- The double nearest to `digits · 10 ^ exponent`.  Numbers far outside the range of doubles are
decided by the place of their leading digit. -/
def roundDecimal (digits : Nat) (exponent : Int) : Float :=
  let places : Int := (Nat.toDigits 10 digits).length
  if digits = 0 || places + exponent < -400 then Float.ofScientific 0 false 0
  else if 400 < places + exponent then Float.ofBits 0x7ff0000000000000
  else if 0 ≤ exponent then Float.ofScientific digits false exponent.toNat
  else Float.ofScientific digits true (-exponent).toNat

def exponentPart? : List Char → Option Int
  | [] => some 0
  | c :: rest =>
      if c = 'e' || c = 'E' then
        let (negative, body) := splitSign rest
        (digits? body).map (signed negative)
      else none

def readMagnitude? (cs : List Char) : Option Float :=
  let whole := cs.takeWhile isDigit
  let rest := cs.dropWhile isDigit
  let (fraction, tail) :=
    match rest with
    | '.' :: more => (more.takeWhile isDigit, more.dropWhile isDigit)
    | _ => ([], rest)
  if whole.isEmpty && fraction.isEmpty then none
  else
    (exponentPart? tail).map fun exponent =>
      roundDecimal (natOfDigits (whole ++ fraction)) (exponent - fraction.length)

def lowered (cs : List Char) : List Char :=
  cs.map Char.toLower

def readSpecial? (cs : List Char) : Option Float :=
  let name := lowered cs
  if name = "inf".toList || name = "infinity".toList then some (Float.ofBits 0x7ff0000000000000)
  else if name = "nan".toList then some (Float.ofBits 0x7ff8000000000000)
  else none

def readFloat? (s : String) : Option Float :=
  let (negative, body) := splitSign s.toList
  (readSpecial? body <|> readMagnitude? body).map fun x => if negative then -x else x

def maxExactInt : Nat := Nat.pow 2 53 - 1

def toFloat? (n : Int64) : Option Float :=
  if n.toInt.natAbs ≤ maxExactInt then some (Float.ofInt n.toInt) else none

end LineScript.Number
