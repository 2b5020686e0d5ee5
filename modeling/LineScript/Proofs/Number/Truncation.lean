import Mathlib.Data.Rat.Floor
import Mathlib.Tactic.FieldSimp
import Mathlib.Tactic.Linarith
import LineScript.Machine.Builtin
import LineScript.Proofs.Operator.Integers

/-!
# Doubles as integers

The 64 bits of a finite double denote a rational number (`Number.value`).  Its conversion to an
integer drops the fraction of that number, or is refused if what is left does not fit in 64 bits.
The bounds of the check are doubles, and the upper one is `2 ^ 63`: this one double is let through,
and becomes the largest integer (`truncateFloat_exact_iff`).
-/

namespace LineScript

namespace Number

/-- The number that the fields of a finite double denote.  Its fraction has 52 bits with a one in
front of them, except if the exponent field is 0. -/
def value (x : Float) : ℚ :=
  let fraction : ℚ := fractionField x / 2 ^ 52
  let magnitude : ℚ :=
    if exponentField x = 0 then fraction * 2 ^ (-1022 : ℤ)
    else (1 + fraction) * 2 ^ ((exponentField x : ℤ) - 1023)
  if signField x then -magnitude else magnitude

def towardsZero (q : ℚ) : ℤ :=
  if 0 ≤ q then ⌊q⌋ else ⌈q⌉

theorem towardsZero_neg (q : ℚ) : towardsZero (-q) = -towardsZero q := by
  unfold towardsZero
  rcases lt_trichotomy q 0 with negative | rfl | positive
  · rw [if_pos (by linarith), if_neg (by linarith), Int.floor_neg]
  · simp
  · rw [if_neg (by linarith), if_pos (by linarith), Int.ceil_neg]

namespace Dyadic

def magnitude (d : Dyadic) : ℚ :=
  d.significand * 2 ^ d.exponent

theorem magnitude_nonneg (d : Dyadic) : 0 ≤ d.magnitude :=
  mul_nonneg (Nat.cast_nonneg _) (zpow_nonneg (by norm_num) _)

theorem floor_magnitude (d : Dyadic) : ⌊d.magnitude⌋ = d.wholePart := by
  unfold magnitude wholePart
  split
  case isTrue nonneg =>
    obtain ⟨n, exponent⟩ := Int.eq_ofNat_of_zero_le nonneg
    have whole : (d.significand * 2 ^ d.exponent : ℚ) = (d.significand * 2 ^ n : ℕ) := by
      rw [exponent, Nat.cast_mul, Nat.cast_pow]
      rfl
    rw [whole, exponent]
    exact Int.floor_natCast _
  case isFalse negative =>
    obtain ⟨n, exponent⟩ := Int.eq_ofNat_of_zero_le (Int.neg_nonneg.2 (Int.le_of_not_le negative))
    have quotient : (d.significand * 2 ^ d.exponent : ℚ) = d.significand / (2 ^ n : ℕ) := by
      rw [← neg_neg d.exponent, exponent, zpow_neg, ← div_eq_mul_inv, Nat.cast_pow]
      rfl
    rw [quotient, Rat.floor_natCast_div_natCast, exponent]
    rfl

def toRat (d : Dyadic) : ℚ :=
  if d.negative then -d.magnitude else d.magnitude

theorem truncate_eq (d : Dyadic) : d.truncate = towardsZero d.toRat := by
  have whole : towardsZero d.magnitude = d.wholePart := by
    rw [towardsZero, if_pos d.magnitude_nonneg, floor_magnitude]
  unfold truncate toRat
  split
  case isTrue negative => rw [towardsZero_neg, whole]
  case isFalse positive => rw [whole]

end Dyadic

/-!
## Reading the bits
-/

variable {x : Float}

theorem ofFloat_subnormal (zero : exponentField x = 0) :
    Dyadic.ofFloat x = ⟨signField x, fractionField x, -1074⟩ := by
  simp [Dyadic.ofFloat, zero, leastExponent]

theorem ofFloat_normal (nonzero : exponentField x ≠ 0) :
    Dyadic.ofFloat x = ⟨signField x, 2 ^ 52 + fractionField x, exponentField x - 1075⟩ := by
  have exponent : leastExponent + ((exponentField x - 1 : ℕ) : ℤ) = exponentField x - 1075 := by
    rw [leastExponent]
    omega
  rw [Dyadic.ofFloat, if_neg nonzero, exponent]
  rfl

theorem toRat_ofFloat (x : Float) : (Dyadic.ofFloat x).toRat = value x := by
  by_cases zero : exponentField x = 0
  · have magnitude : (fractionField x : ℚ) * 2 ^ (-1074 : ℤ) =
        fractionField x / 2 ^ 52 * 2 ^ (-1022 : ℤ) := by
      rw [show (-1074 : ℤ) = -52 + -1022 by norm_num, zpow_add₀ (by norm_num)]
      ring
    simp only [ofFloat_subnormal zero, Dyadic.toRat, Dyadic.magnitude,
      magnitude, value, if_pos zero]
  · have magnitude : ((2 ^ 52 + fractionField x : ℕ) : ℚ) * 2 ^ ((exponentField x : ℤ) - 1075) =
        (1 + fractionField x / 2 ^ 52) * 2 ^ ((exponentField x : ℤ) - 1023) := by
      rw [show (exponentField x : ℤ) - 1075 = -52 + (exponentField x - 1023) by ring,
        zpow_add₀ (by norm_num)]
      push_cast
      ring
    simp only [ofFloat_normal zero, Dyadic.toRat, Dyadic.magnitude, magnitude, value, if_neg zero]

theorem Dyadic.wholePart_le {negative : Bool} {m : ℕ} {e : ℤ} (small : e < 0) :
    (Dyadic.mk negative m e).wholePart ≤ m := by
  rw [wholePart, if_neg (Int.not_le.2 small)]
  exact Nat.div_le_self _ _

theorem Dyadic.wholePart_eq {negative : Bool} {m : ℕ} {e : ℤ} (large : 0 ≤ e) :
    (Dyadic.mk negative m e).wholePart = m * 2 ^ e.toNat := by
  rw [wholePart, if_pos large]
  rfl

theorem fractionField_lt (x : Float) : fractionField x < 2 ^ 52 :=
  Nat.mod_lt _ (by decide)

theorem significand_eq_of_mul {m n : ℕ} (lower : 2 ^ 52 ≤ m) (upper : m < 2 ^ 53)
    (product : m * 2 ^ n = 2 ^ 63) : m = 2 ^ 52 ∧ n = 11 := by
  have atMost : n ≤ 11 := by
    have le : 2 ^ 52 * 2 ^ n ≤ 2 ^ 63 := product ▸ Nat.mul_le_mul_right _ lower
    rw [← pow_add] at le
    have := (Nat.pow_le_pow_iff_right (by decide)).1 le
    omega
  have atLeast : 11 ≤ n := by
    have lt : 2 ^ 63 < 2 ^ 53 * 2 ^ n := product ▸ Nat.mul_lt_mul_of_pos_right upper (by positivity)
    rw [← pow_add] at lt
    have := (Nat.pow_lt_pow_iff_right (by decide)).1 lt
    omega
  obtain rfl : n = 11 := by omega
  exact ⟨by omega, rfl⟩

theorem toBits_eq (x : Float) :
    x.toBits.toNat = (if signField x then 2 ^ 63 else 0) + exponentField x * 2 ^ 52 +
      fractionField x := by
  have bound : x.toBits.toNat < 2 ^ 64 := x.toBits.toNat_lt
  have fields : x.toBits.toNat = x.toBits.toNat / 2 ^ 52 * 2 ^ 52 + fractionField x := by
    have := Nat.div_add_mod x.toBits.toNat (2 ^ 52)
    simp only [fractionField, fractionCount, Nat.pow_eq]
    omega
  have exponent : exponentField x = x.toBits.toNat / 2 ^ 52 % 2 ^ 11 := rfl
  by_cases sign : 2 ^ 63 ≤ x.toBits.toNat
  · have negative : signField x = true := decide_eq_true sign
    rw [if_pos negative]
    omega
  · have positive : signField x = false := decide_eq_false sign
    rw [positive, if_neg Bool.false_ne_true]
    omega

theorem fields_of_bound (bits : x.toBits = 0x43E0000000000000) :
    signField x = false ∧ exponentField x = 1086 ∧ fractionField x = 0 := by
  rw [signField, exponentField, fractionField, bits]
  decide

theorem value_of_bound (bits : x.toBits = 0x43E0000000000000) : value x = 2 ^ 63 := by
  obtain ⟨sign, exponent, fraction⟩ := fields_of_bound bits
  simp only [value, sign, exponent, fraction]
  norm_num

/-- The least number that does not fit any more is the whole part of one double. -/
theorem truncate_eq_iff (x : Float) :
    (Dyadic.ofFloat x).truncate = 2 ^ 63 ↔ x.toBits = 0x43E0000000000000 := by
  constructor
  · intro whole
    have fraction := fractionField_lt x
    obtain ⟨sign, whole⟩ : (Dyadic.ofFloat x).negative = false ∧
      (Dyadic.ofFloat x).wholePart = 2 ^ 63 := by
      rw [Dyadic.truncate] at whole
      split at whole
      case isTrue => omega
      case isFalse positive => exact ⟨by simpa using positive, by exact_mod_cast whole⟩
    by_cases zero : exponentField x = 0
    · rw [ofFloat_subnormal zero] at whole
      have : 2 ^ 63 ≤ fractionField x := whole ▸ Dyadic.wholePart_le (by decide)
      omega
    · rw [ofFloat_normal zero] at sign whole
      by_cases small : (exponentField x : ℤ) - 1075 < 0
      · have : 2 ^ 63 ≤ 2 ^ 52 + fractionField x := whole ▸ Dyadic.wholePart_le small
        omega
      · rw [Dyadic.wholePart_eq (Int.not_lt.1 small)] at whole
        obtain ⟨noFraction, exponent⟩ := significand_eq_of_mul (by omega) (by omega) whole
        have positive : signField x = false := sign
        have field : exponentField x = 1086 := by omega
        have zeros : fractionField x = 0 := by omega
        rw [← UInt64.toNat_inj, toBits_eq, positive, field, zeros]
        rfl
  · intro bits
    obtain ⟨sign, exponent, fraction⟩ := fields_of_bound bits
    rw [ofFloat_normal (by omega), sign, exponent, fraction]
    rfl

end Number

open Number

/-!
## The conversion
-/

/-- A conversion of a double to an integer is exact: it returns the number without its fraction, and
is refused if that does not fit. -/
structure ConvertsExactly (x : Float) (returns : Int64 → Prop) (refuses : Prop) : Prop where
  returns_iff (k : Int64) : returns k ↔ k.toInt = towardsZero (value x)
  refuses_iff : refuses ↔ ¬ Fits (towardsZero (value x))

variable {x : Float}

theorem towardsZero_value_eq_iff (x : Float) :
    towardsZero (value x) = 2 ^ 63 ↔ x.toBits = 0x43E0000000000000 := by
  rw [← toRat_ofFloat, ← Dyadic.truncate_eq, truncate_eq_iff]

theorem truncateFloat_of_isFinite (finite : isFinite x = true) :
    truncateFloat x =
      if towardsZero (value x) < -2 ^ 63 ∨ 2 ^ 63 < towardsZero (value x) then
        .error (.unhandled (.conversion x))
      else .ok ((narrow? (towardsZero (value x))).getD Int64.maxValue) := by
  rw [truncateFloat, dyadic?, if_pos finite, ← toRat_ofFloat, ← Dyadic.truncate_eq]
  rfl

theorem truncateFloat_of_fits (finite : isFinite x = true) {k : Int64}
    (whole : k.toInt = towardsZero (value x)) : truncateFloat x = .ok k := by
  have fits : Fits k.toInt := fits_toInt k
  rw [truncateFloat_of_isFinite finite, ← whole, narrow?_eq_some_iff.2 rfl]
  exact if_neg (by unfold Fits at fits; omega)

theorem truncateFloat_of_not_fits (finite : isFinite x = true)
    (large : ¬ Fits (towardsZero (value x)))
    (bound : x.toBits ≠ 0x43E0000000000000) : truncateFloat x = .error
    (.unhandled (.conversion x)) := by
  have other : towardsZero (value x) ≠ 2 ^ 63 := mt (towardsZero_value_eq_iff x).1 bound
  rw [truncateFloat_of_isFinite finite]
  exact if_pos (by unfold Fits at large; omega)

theorem truncateFloat_of_bound (finite : isFinite x = true)
    (bound : x.toBits = 0x43E0000000000000) :
    truncateFloat x = .ok Int64.maxValue := by
  rw [truncateFloat_of_isFinite finite, (towardsZero_value_eq_iff x).2 bound]
  rfl

theorem convertsExactly_truncateFloat_iff (finite : isFinite x = true) :
    ConvertsExactly x (truncateFloat x = .ok ·)
      (truncateFloat x = .error (.unhandled (.conversion x))) ↔
      x.toBits ≠ 0x43E0000000000000 := by
  constructor
  · intro exactly bound
    have large : ¬ Fits (towardsZero (value x)) := by
      rw [(towardsZero_value_eq_iff x).2 bound]
      decide
    have refused := exactly.refuses_iff.2 large
    rw [truncateFloat_of_bound finite bound] at refused
    cases refused
  · intro bound
    by_cases fits : Fits (towardsZero (value x))
    · obtain ⟨k, -, whole⟩ := exists_narrow? fits
      rw [truncateFloat_of_fits finite whole]
      refine ⟨fun k' => ?_, iff_of_false nofun (not_not_intro fits)⟩
      rw [← whole, Int64.toInt_inj, Except.ok.injEq, eq_comm]
    · rw [truncateFloat_of_not_fits finite fits bound]
      exact ⟨fun k => iff_of_false nofun fun whole => fits (whole ▸ fits_toInt k),
        iff_of_true rfl fits⟩

theorem Builtin.run_int_float (properties : List (String × String)) (x : Float) (sink : Sink) :
    Builtin.run "int" properties [.float x] sink =
      (sink, (truncateFloat x).map fun k => some (.int k)) := by
  have conversion : (toInt (.float x)).map some = (truncateFloat x).map fun k => some (.int k) := by
    rw [toInt]
    cases truncateFloat x <;> rfl
  rw [← conversion]
  rfl

/-- Every finite double but `2 ^ 63` is converted exactly, by the function as by `system int`; `2 ^
63` is converted to the largest integer. -/
theorem truncateFloat_exact_iff (finite : isFinite x = true) (properties : List (String × String))
    (sink : Sink) :
    (ConvertsExactly x (truncateFloat x = .ok ·)
      (truncateFloat x = .error (.unhandled (.conversion x))) ↔
        x.toBits ≠ 0x43E0000000000000) ∧
      (ConvertsExactly x
          (fun k => Builtin.run "int" properties [.float x] sink = (sink, .ok (some (.int k))))
          (Builtin.run "int" properties [.float x] sink =
            (sink, .error (.unhandled (.conversion x)))) ↔
        x.toBits ≠ 0x43E0000000000000) ∧
      (x.toBits = 0x43E0000000000000 →
        value x = 2 ^ 63 ∧ truncateFloat x = .ok Int64.maxValue ∧
          Builtin.run "int" properties [.float x] sink =
            (sink, .ok (some (.int Int64.maxValue)))) := by
  have returns (k : Int64) : Builtin.run "int" properties [.float x] sink =
    (sink, .ok (some (.int k))) ↔
      truncateFloat x = .ok k := by
    rw [Builtin.run_int_float]
    cases truncateFloat x <;> simp [Except.map]
  have refuses : Builtin.run "int" properties [.float x] sink =
        (sink, .error (.unhandled (.conversion x))) ↔
      truncateFloat x = .error (.unhandled (.conversion x)) := by
    rw [Builtin.run_int_float]
    cases truncateFloat x <;> simp [Except.map]
  have exact_iff := convertsExactly_truncateFloat_iff finite
  refine ⟨exact_iff, ?_, fun bound => ?_⟩
  · simpa only [returns, refuses] using exact_iff
  · have result := truncateFloat_of_bound finite bound
    exact ⟨value_of_bound bound, result, (returns _).2 result⟩

/-- The number -2.5 becomes -2, and `2 ^ 63` the largest integer. -/
theorem truncateFloat_exact_doubles :
    isFinite (.ofBits 0xC004000000000000) = true ∧
      truncateFloat (.ofBits 0xC004000000000000) = .ok (-2) ∧
      towardsZero (value (.ofBits 0xC004000000000000)) = -2 ∧
      isFinite (.ofBits 0x43E0000000000000) = true ∧ value (.ofBits 0x43E0000000000000) = 2 ^ 63 ∧
      truncateFloat (.ofBits 0x43E0000000000000) = .ok Int64.maxValue := by
  have checked : isFinite (.ofBits 0xC004000000000000) = true ∧
      (Float.ofBits 0xC004000000000000).toBits ≠ 0x43E0000000000000 ∧
      truncateFloat (.ofBits 0xC004000000000000) = .ok (-2) ∧
      isFinite (.ofBits 0x43E0000000000000) = true ∧
      (Float.ofBits 0x43E0000000000000).toBits = 0x43E0000000000000 := by
    decide +kernel
  obtain ⟨small, other, result, large, bound⟩ := checked
  have exactly := (truncateFloat_exact_iff small [] {}).1.2 other
  obtain ⟨number, saturated, -⟩ := (truncateFloat_exact_iff large [] {}).2.2 bound
  exact ⟨small, result, ((exactly.returns_iff (-2)).1 result).symm, large, number, saturated⟩

/-- The double `2 ^ 63` is not refused. -/
theorem truncateFloat_saturates :
    isFinite (.ofBits 0x43E0000000000000) = true ∧
      towardsZero (value (.ofBits 0x43E0000000000000)) = 2 ^ 63 ∧
      truncateFloat (.ofBits 0x43E0000000000000) = .ok Int64.maxValue ∧
      ¬ ConvertsExactly (.ofBits 0x43E0000000000000)
        (truncateFloat (.ofBits 0x43E0000000000000) = .ok ·)
        (truncateFloat (.ofBits 0x43E0000000000000) =
          .error (.unhandled (.conversion (.ofBits 0x43E0000000000000)))) := by
  have finite : isFinite (.ofBits 0x43E0000000000000) = true := by decide +kernel
  have bound : (Float.ofBits 0x43E0000000000000).toBits = 0x43E0000000000000 := by decide +kernel
  exact ⟨finite, (towardsZero_value_eq_iff _).2 bound, truncateFloat_of_bound finite bound,
    fun exactly => (convertsExactly_truncateFloat_iff finite).1 exactly bound⟩

end LineScript
