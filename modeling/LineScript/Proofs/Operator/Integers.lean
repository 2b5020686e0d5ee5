import Mathlib.Algebra.Ring.Int.Parity
import LineScript.Operator.Apply
import LineScript.Proofs.Lexeme.Spelling

/-!
# Integers are exact or refused

Every operator on two integers gives the exact result or refuses it (`Operator.Settles`); which of
the two happens is decided by the result alone, so that nothing wraps around
(`Operator.integers_exact`).  A power has a result by repeated multiplication of unbounded integers,
which the shortcut for large exponents agrees with (`powInt?_eq`).
-/

namespace LineScript

namespace Number

def Fits (n : Int) : Prop :=
  -2 ^ 63 ≤ n ∧ n ≤ 2 ^ 63 - 1

instance (n : Int) : Decidable (Fits n) :=
  inferInstanceAs (Decidable (_ ∧ _))

theorem fits_toInt (n : Int64) : Fits n.toInt :=
  ⟨n.le_toInt, Int.le_sub_one_of_lt n.toInt_lt⟩

theorem narrow?_eq_none_iff {n : Int} : narrow? n = none ↔ ¬ Fits n := by
  have bounds : (Int64.minValue.toInt ≤ n ∧ n ≤ Int64.maxValue.toInt) ↔ Fits n := by
    rw [Int64.toInt_minValue, Int64.toInt_maxValue, Fits]
  rw [narrow?, if_congr bounds rfl rfl]
  simp

theorem narrow?_eq_some_iff {n : Int} {k : Int64} : narrow? n = some k ↔ k.toInt = n := by
  constructor
  · intro found
    by_cases fits : Fits n
    · simp only [narrow?] at found
      split at found
      · cases found
        exact Int64.toInt_ofInt_of_le fits.1 (Int.lt_of_le_sub_one fits.2)
      · cases found
    · rw [narrow?_eq_none_iff.2 fits] at found
      cases found
  · rintro rfl
    exact Lexeme.narrow?_toInt k

theorem exists_narrow? {n : Int} (fits : Fits n) : ∃ k, narrow? n = some k ∧ k.toInt = n := by
  cases found : narrow? n with
  | none => exact absurd fits (narrow?_eq_none_iff.1 found)
  | some k => exact ⟨k, rfl, narrow?_eq_some_iff.1 found⟩

end Number

open Number

/-!
## Powers
-/

theorem pow_of_natAbs_le_one {b : Int} (small : b.natAbs ≤ 1) (e : Nat) :
    b ^ e = if e = 0 then 1 else if e % 2 = 0 then b * b else b := by
  split
  case isTrue none =>
    rw [none, pow_zero]
  case isFalse some =>
    have values : b = 0 ∨ b = 1 ∨ b = -1 := by omega
    rcases values with rfl | rfl | rfl
    · simp [some]
    · simp
    · rcases Nat.even_or_odd e with even | odd
      · rw [if_pos (Nat.even_iff.1 even), even.neg_one_pow]
        rfl
      · have rest : ¬ e % 2 = 0 := by
          rw [Nat.odd_iff.1 odd]
          decide
        rw [if_neg rest, odd.neg_one_pow]

theorem not_fits_pow {b : Int} (large : ¬ b.natAbs ≤ 1) {e : Nat} (many : 64 ≤ e) :
    ¬ Fits (b ^ e) := by
  have size : 2 ^ 64 ≤ (b ^ e).natAbs :=
    calc 2 ^ 64 ≤ 2 ^ e := Nat.pow_le_pow_right (by decide) many
      _ ≤ b.natAbs ^ e := Nat.pow_le_pow_left (by omega) e
      _ = (b ^ e).natAbs := (Int.natAbs_pow b e).symm
  unfold Fits
  omega

theorem powInt?_eq (b : Int64) (e : Nat) : powInt? b e = narrow? (b.toInt ^ e) := by
  simp only [powInt?]
  by_cases small : b.toInt.natAbs ≤ 1
  · rw [if_pos small, pow_of_natAbs_le_one small]
  · rw [if_neg small]
    by_cases many : 64 ≤ e
    · rw [if_pos many, narrow?_eq_none_iff.2 (not_fits_pow small many)]
    · rw [if_neg many]
      rfl

/-!
## Quotients
-/

structure Truncates (a b q r : Int) : Prop where
  quotient : q = a.tdiv b
  remainder : r = a.tmod b
  split : q * b + r = a
  less : r.natAbs < b.natAbs
  sign : r = 0 ∨ r.sign = a.sign

theorem truncates {a b : Int} (nonzero : b ≠ 0) : Truncates a b (a.tdiv b) (a.tmod b) where
  quotient := rfl
  remainder := rfl
  split := Int.tdiv_mul_add_tmod a b
  less := by
    rw [Int.natAbs_tmod]
    exact Nat.mod_lt _ (Int.natAbs_pos.2 nonzero)
  sign := by
    rw [Int.sign_tmod]
    by_cases divides : b ∣ a
    · exact .inl (Int.tmod_eq_zero_of_dvd divides)
    · exact .inr (if_neg divides)

theorem fits_tdiv {a b : Int} (fits : Fits a) (nonzero : b ≠ 0)
    (other : ¬ (a = -2 ^ 63 ∧ b = -1)) : Fits (a.tdiv b) := by
  have size : (a.tdiv b).natAbs = a.natAbs / b.natAbs := Int.natAbs_tdiv a b
  unfold Fits at fits ⊢
  by_cases unit : b.natAbs = 1
  · have values : b = 1 ∨ b = -1 := by omega
    rcases values with rfl | rfl
    · rw [Int.tdiv_one]
      exact fits
    · rw [Int.tdiv_neg, Int.tdiv_one]
      omega
  · have half : a.natAbs / b.natAbs ≤ a.natAbs / 2 := Nat.div_le_div_left (by omega) (by decide)
    omega

theorem fits_tmod (a : Int) {b : Int} (fits : Fits b) (nonzero : b ≠ 0) : Fits (a.tmod b) := by
  have less := (truncates (a := a) nonzero).less
  unfold Fits at fits ⊢
  omega

/-!
## Outcomes
-/

def Settles (result : Int) (refusal : Unhandled) (outcome : Except Cause Value) : Prop :=
  (Fits result → ∃ k : Int64, k.toInt = result ∧ outcome = .ok (.int k)) ∧
    (¬ Fits result → outcome = .error (.unhandled refusal))

theorem settles_narrow? (n : Int) (refusal : Unhandled) :
    Settles n refusal (match narrow? n with
      | some k => .ok (.int k)
      | none => .error (.unhandled refusal)) := by
  constructor
  · intro fits
    obtain ⟨k, found, value⟩ := exists_narrow? fits
    exact ⟨k, value, by rw [found]⟩
  · intro large
    rw [narrow?_eq_none_iff.2 large]

section Settles

variable {n : Int} {refusal : Unhandled} {outcome : Except Cause Value}

theorem Settles.eq_ok (settles : Settles n refusal outcome) {k : Int64} (value : k.toInt = n) :
    outcome = .ok (.int k) := by
  obtain ⟨k', value', same⟩ := settles.1 (value ▸ fits_toInt k)
  rw [same, Int64.toInt_inj.1 (value'.trans value.symm)]

theorem Settles.of_ok (settles : Settles n refusal outcome) {v : Value} (same : outcome = .ok v) :
    ∃ k : Int64, v = .int k ∧ k.toInt = n := by
  by_cases fits : Fits n
  · obtain ⟨k, value, same'⟩ := settles.1 fits
    rw [same] at same'
    exact ⟨k, Except.ok.inj same', value⟩
  · rw [settles.2 fits] at same
    cases same

theorem Settles.exists_ok_iff (settles : Settles n refusal outcome) :
    (∃ v, outcome = .ok v) ↔ Fits n := by
  constructor
  · rintro ⟨v, same⟩
    obtain ⟨k, -, rfl⟩ := settles.of_ok same
    exact fits_toInt k
  · intro fits
    obtain ⟨k, -, same⟩ := settles.1 fits
    exact ⟨.int k, same⟩

end Settles

namespace Operator

variable (a b : Int64)

theorem arithmetic_ints (op : Operator) :
    op.arithmetic (.int a) (.int b) = (op.onInts a b).map .int := by
  simp [arithmetic, Value.isString]

theorem settles_arithmetic {op : Operator} {n : Int}
    (same : op.onInts a b = match narrow? n with
      | some k => .ok k
      | none => .error (.unhandled (.overflow op a b))) :
    Settles n (.overflow op a b) (op.arithmetic (.int a) (.int b)) := by
  have settles := settles_narrow? n (.overflow op a b)
  rw [arithmetic_ints, same]
  cases found : narrow? n with
  | none => rwa [found] at settles
  | some k => rwa [found] at settles

theorem settles_div (nonzero : b.toInt ≠ 0) :
    Settles (a.toInt.tdiv b.toInt) (.overflow .div a b) (applyBetween .div (.int a) (.int b)) :=
  settles_arithmetic a b (if_neg nonzero)

theorem settles_mod (nonzero : b.toInt ≠ 0) (fits : Fits (a.toInt.tdiv b.toInt)) :
    Settles (a.toInt.tmod b.toInt) (.overflow .mod a b) (applyBetween .mod (.int a) (.int b)) := by
  obtain ⟨k, found, -⟩ := exists_narrow? fits
  refine settles_arithmetic a b ?_
  simp only [onInts, if_neg nonzero, found]
  rfl

theorem mod_refused (nonzero : b.toInt ≠ 0) (large : ¬ Fits (a.toInt.tdiv b.toInt)) :
    applyBetween .mod (.int a) (.int b) = .error (.unhandled (.overflow .mod a b)) := by
  have none := narrow?_eq_none_iff.2 large
  simp only [applyBetween, arithmetic_ints, onInts, if_neg nonzero, none]
  rfl

theorem power_of_exponent {e : Nat} (nonneg : 0 ≤ b.toInt) (exponent : exponentOf b = .ok e) :
    applyBetween .pow (.int a) (.int b) = match powInt? a e with
      | some k => .ok (.int k)
      | none => .error (.unhandled (.overflow .pow a b)) := by
  simp only [applyBetween, power, if_neg (Int.not_lt.2 nonneg), exponent]
  rfl

theorem settles_power (nonneg : 0 ≤ b.toInt) (small : b.toInt < 2 ^ 32) :
    Settles (a.toInt ^ b.toInt.toNat) (.overflow .pow a b)
      (applyBetween .pow (.int a) (.int b)) := by
  have exponent : exponentOf b = .ok b.toInt.toNat := if_pos ⟨nonneg, small⟩
  rw [power_of_exponent a b nonneg exponent, powInt?_eq]
  exact settles_narrow? _ _

theorem power_refused (large : 2 ^ 32 ≤ b.toInt) :
    applyBetween .pow (.int a) (.int b) = .error (.unhandled (.exponentRange b)) := by
  have nonneg : 0 ≤ b.toInt := Int.le_trans (by decide) large
  have exponent : exponentOf b = .error (.unhandled (.exponentRange b)) :=
    if_neg fun bounds => Int.not_lt.2 large bounds.2
  simp only [applyBetween, power, if_neg (Int.not_lt.2 nonneg), exponent]
  rfl

theorem settles_negate :
    Settles (-a.toInt) (.negateOverflow a) (applyBefore .negate (.int a)) :=
  settles_narrow? _ _

/-- What the operators make of two integers. -/
structure ExactOrRefused (a b : Int64) : Prop where
  add : Settles (a.toInt + b.toInt) (.overflow .add a b) (applyBetween .add (.int a) (.int b))
  sub : Settles (a.toInt - b.toInt) (.overflow .sub a b) (applyBetween .sub (.int a) (.int b))
  mul : Settles (a.toInt * b.toInt) (.overflow .mul a b) (applyBetween .mul (.int a) (.int b))
  byZero : b.toInt = 0 → applyBetween .div (.int a) (.int b) = .error .divisionByZero ∧
    applyBetween .mod (.int a) (.int b) = .error .divisionByZero
  leastByMinusOne : a.toInt = -2 ^ 63 → b.toInt = -1 →
    applyBetween .div (.int a) (.int b) = .error (.unhandled (.overflow .div a b)) ∧
      applyBetween .mod (.int a) (.int b) = .error (.unhandled (.overflow .mod a b))
  divided : b.toInt ≠ 0 → ¬ (a.toInt = -2 ^ 63 ∧ b.toInt = -1) →
    ∃ q r : Int64, applyBetween .div (.int a) (.int b) = .ok (.int q) ∧
      applyBetween .mod (.int a) (.int b) = .ok (.int r) ∧
      Truncates a.toInt b.toInt q.toInt r.toInt
  power : 0 ≤ b.toInt → b.toInt < 2 ^ 32 →
    Settles (a.toInt ^ b.toInt.toNat) (.overflow .pow a b) (applyBetween .pow (.int a) (.int b))
  powerBeyond : 2 ^ 32 ≤ b.toInt →
    applyBetween .pow (.int a) (.int b) = .error (.unhandled (.exponentRange b))
  negate : (∃ v, applyBefore .negate (.int a) = .ok v) ↔ a.toInt ≠ -2 ^ 63
  negated : ∀ v, applyBefore .negate (.int a) = .ok v →
    applyBetween .sub (.int 0) (.int a) = .ok v ∧ applyBetween .mul (.int a) (.int (-1)) = .ok v

/-- The operators on integers are exact or they refuse. -/
theorem integers_exact (a b : Int64) : ExactOrRefused a b := by
  have sub (a b : Int64) :
      Settles (a.toInt - b.toInt) (.overflow .sub a b) (applyBetween .sub (.int a) (.int b)) :=
    settles_arithmetic a b rfl
  have mul (a b : Int64) :
      Settles (a.toInt * b.toInt) (.overflow .mul a b) (applyBetween .mul (.int a) (.int b)) :=
    settles_arithmetic a b rfl
  constructor
  case add => exact settles_arithmetic a b rfl
  case sub => exact sub a b
  case mul => exact mul a b
  case byZero =>
    intro zero
    simp [applyBetween, arithmetic_ints, onInts, zero, Except.map]
  case leastByMinusOne =>
    intro least minusOne
    have large : ¬ Fits (a.toInt.tdiv b.toInt) := by
      rw [least, minusOne]
      decide
    have nonzero : b.toInt ≠ 0 := by omega
    exact ⟨(settles_div a b nonzero).2 large, mod_refused a b nonzero large⟩
  case divided =>
    intro nonzero other
    have fits := fits_tdiv (fits_toInt a) nonzero other
    obtain ⟨q, quotient, div⟩ := (settles_div a b nonzero).1 fits
    obtain ⟨r, remainder, mod⟩ :=
      (settles_mod a b nonzero fits).1 (fits_tmod a.toInt (fits_toInt b) nonzero)
    refine ⟨q, r, div, mod, ?_⟩
    rw [quotient, remainder]
    exact truncates nonzero
  case power => exact settles_power a b
  case powerBeyond => exact power_refused a b
  case negate =>
    rw [(settles_negate a).exists_ok_iff]
    have bounds := fits_toInt a
    unfold Fits at bounds ⊢
    omega
  case negated =>
    intro v done
    obtain ⟨k, rfl, value⟩ := (settles_negate a).of_ok done
    refine ⟨(sub 0 a).eq_ok ?_, (mul a (-1)).eq_ok ?_⟩
    · simp [value]
    · simp [value]

theorem integers_exact_bounds :
    applyBetween .mod (.int Int64.minValue) (.int (-1)) =
        .error (.unhandled (.overflow .mod Int64.minValue (-1))) ∧
      applyBetween .pow (.int (-2)) (.int 63) = .ok (.int Int64.minValue) ∧
      applyBetween .pow (.int 2) (.int 63) = .error (.unhandled (.overflow .pow 2 63)) ∧
      ∃ q r : Int64, applyBetween .div (.int (-7)) (.int 2) = .ok (.int q) ∧
        applyBetween .mod (.int (-7)) (.int 2) = .ok (.int r) ∧ Truncates (-7) 2 q.toInt r.toInt :=
  ⟨((integers_exact Int64.minValue (-1)).leastByMinusOne (by decide) (by decide)).2,
    ((integers_exact (-2) 63).power (by decide) (by decide)).eq_ok (by decide),
    ((integers_exact 2 63).power (by decide) (by decide)).2 (by decide),
    (integers_exact (-7) 2).divided (by decide) (by decide)⟩

end Operator

end LineScript
