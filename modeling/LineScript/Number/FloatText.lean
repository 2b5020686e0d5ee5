import LineScript.Number.Shortest

/-!
# The text of a double

A number is written positionally, never with an exponent.  `plainText` writes the fewest digits that
read back; `floatText` writes a whole number with all its digits and `.0` and agrees with
`plainText` on the rest.
-/

namespace LineScript.Number

def padded (width n : Nat) : String :=
  let digits := Nat.toDigits 10 n
  String.ofList (List.replicate (width - digits.length) '0' ++ digits)

def Decimal.positional (d : Decimal) : String :=
  if 0 ≤ d.exponent then
    toString (d.digits * Nat.pow 10 d.exponent.toNat)
  else
    let places := (-d.exponent).toNat
    let unit := Nat.pow 10 places
    toString (d.digits / unit) ++ "." ++ padded places (d.digits % unit)

def signText (x : Float) : String :=
  if signField x then "-" else ""

def specialText (x : Float) : String :=
  if isNaN x then "NaN" else signText x ++ "inf"

def plainText (x : Float) : String :=
  match dyadic? x with
  | none => specialText x
  | some d => signText x ++ (shortest d).positional

/-- The text of a float value: a whole number keeps all its digits and ends in `.0`. -/
def floatText (x : Float) : String :=
  match dyadic? x with
  | none => specialText x
  | some d =>
      if d.isWhole then signText x ++ toString d.wholePart ++ ".0"
      else signText x ++ (shortest d).positional

end LineScript.Number
