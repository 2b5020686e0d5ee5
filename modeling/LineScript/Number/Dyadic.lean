/-!
# Doubles as exact binary numbers

The 64 bits of a double hold a sign, an exponent field of eleven bits and a fraction of 52 bits.
A finite double is `± significand · 2 ^ exponent` for two numbers read off these fields; everything
that has to be exact (text, order, conversion to an integer) is computed from them and not from
float operations.
-/

namespace LineScript.Number

/-- A finite double: `± significand · 2 ^ exponent`. -/
structure Dyadic where
  negative : Bool
  significand : Nat
  exponent : Int
  deriving DecidableEq, Repr

def leastExponent : Int := -1074

def signWeight : Nat := Nat.pow 2 63

def fractionCount : Nat := Nat.pow 2 52

def exponentCount : Nat := Nat.pow 2 11

def signField (x : Float) : Bool :=
  signWeight ≤ x.toBits.toNat

def exponentField (x : Float) : Nat :=
  x.toBits.toNat / fractionCount % exponentCount

def fractionField (x : Float) : Nat :=
  x.toBits.toNat % fractionCount

def isFinite (x : Float) : Bool :=
  exponentField x != 2047

def isNaN (x : Float) : Bool :=
  exponentField x == 2047 && fractionField x != 0

def Dyadic.ofFloat (x : Float) : Dyadic :=
  let field := exponentField x
  if field = 0 then
    { negative := signField x, significand := fractionField x, exponent := leastExponent }
  else
    { negative := signField x
      significand := fractionCount + fractionField x
      exponent := leastExponent + (field - 1 : Nat) }

/-- The exact value of a double, if it is finite. -/
def dyadic? (x : Float) : Option Dyadic :=
  if isFinite x then some (.ofFloat x) else none

namespace Dyadic

def wholePart (d : Dyadic) : Nat :=
  if 0 ≤ d.exponent then d.significand * Nat.pow 2 d.exponent.toNat
  else d.significand / Nat.pow 2 (-d.exponent).toNat

def isWhole (d : Dyadic) : Bool :=
  0 ≤ d.exponent || d.significand % Nat.pow 2 (-d.exponent).toNat == 0

def truncate (d : Dyadic) : Int :=
  if d.negative then -(d.wholePart : Int) else d.wholePart

end Dyadic

/-- A key whose order is the order of doubles: the magnitude bits with the sign of the number.
Both zeros have the key 0, and every NaN comes after all numbers with one key. -/
def orderKey (x : Float) : Int :=
  if isNaN x then signWeight
  else
    let magnitude : Int := (x.toBits.toNat % signWeight : Nat)
    if signField x then -magnitude else magnitude

def compareFloats (x y : Float) : Ordering :=
  compare (orderKey x) (orderKey y)

end LineScript.Number
