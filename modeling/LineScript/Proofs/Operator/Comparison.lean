import LineScript.Operator.Apply
import LineScript.Proofs.Number.Promotion

/-!
# Comparisons are one order

Integers, strings and mixed numbers are compared in three ways (`Operator.Compared`).  For numbers
all of them go by one place of each number (`Value.rank?`): that of the double, where the number is
one or becomes one, and beyond all doubles for integers that are too large to be promoted.  So the
operators agree with each other and with equality, and chains of comparisons hold across types
(`Operator.comparisons_one_order`).
-/

namespace LineScript

open Number

def Value.rank? : Value → Option Int
  | .int n => some (intRank n.toInt)
  | .float x => some (orderKey x)
  | _ => none

namespace Operator

variable {l m r : Value} {o : Ordering}

theorem natAbs_lt_of_toFloat? {n : Int64} {x : Float} (promoted : toFloat? n = some x) :
    n.toInt.natAbs < 2 ^ 53 ∧ x = Float.ofInt n.toInt := by
  unfold toFloat? at promoted
  split at promoted
  · rename_i exact
    refine ⟨?_, (Option.some.inj promoted).symm⟩
    have largest : maxExactInt = 2 ^ 53 - 1 := rfl
    omega
  · cases promoted

theorem rank?_of_asFloat {v : Value} {x : Float} (promoted : v.asFloat = .ok x) :
    v.rank? = some (orderKey x) := by
  cases v with
  | int n =>
      simp only [Value.asFloat] at promoted
      cases found : toFloat? n with
      | none => simp [found] at promoted
      | some y =>
          rw [found] at promoted
          obtain ⟨small, rfl⟩ := natAbs_lt_of_toFloat? found
          cases promoted
          rw [Value.rank?, intRank_of_small small]
  | float y =>
      cases promoted
      rfl
  | _ => cases promoted

theorem isNumeric_of_asFloat {v : Value} {x : Float} (promoted : v.asFloat = .ok x) :
    v.isNumeric = true := by
  cases v with
  | int n => rfl
  | float y => rfl
  | _ => cases promoted

inductive Compared : Value → Value → Ordering → Prop where
  | ints (a b : Int64) : Compared (.int a) (.int b) (compare a.toInt b.toInt)
  | strings (s t : String) : Compared (.string s) (.string t) (compare s t)
  | doubles {l r : Value} {x y : Float} (mixed : l.type = .float ∨ r.type = .float)
      (left : l.asFloat = .ok x) (right : r.asFloat = .ok y) : Compared l r (compareFloats x y)

theorem mixed_of_isNumeric (numeric : (l.isNumeric && r.isNumeric) = true)
    (notInts : ∀ a b, l = .int a → r = .int b → False) : l.type = .float ∨ r.type = .float := by
  rw [Bool.and_eq_true] at numeric
  obtain ⟨left, right⟩ := numeric
  cases l with
  | float x => exact .inl rfl
  | int a =>
      cases r with
      | float y => exact .inr rfl
      | int b => exact (notInts a b rfl rfl).elim
      | _ => cases right
  | _ => cases left

theorem order?_eq_some_iff : order? l r = some o ↔ Compared l r o := by
  constructor
  · intro found
    unfold order? at found
    split at found
    case h_1 a b =>
      cases found
      exact .ints a b
    case h_2 s t =>
      cases found
      exact .strings s t
    case h_3 notInts notStrings =>
      split at found
      case isFalse other => cases found
      case isTrue numeric =>
        split at found
        case h_2 => cases found
        case h_1 x y left right =>
          cases found
          exact .doubles (mixed_of_isNumeric numeric notInts) left right
  · intro compared
    cases compared with
    | ints a b => rfl
    | strings s t => rfl
    | @doubles _ _ x y mixed left right =>
        unfold order?
        split
        case h_1 => simp [Value.type] at mixed
        case h_2 => cases left
        case h_3 =>
          simp [isNumeric_of_asFloat left, isNumeric_of_asFloat right, left, right]

theorem Compared.swap (compared : Compared l r o) : Compared r l o.swap := by
  cases compared with
  | ints a b =>
      rw [← Std.OrientedCmp.eq_swap]
      exact .ints b a
  | strings s t =>
      rw [← Std.OrientedCmp.eq_swap]
      exact .strings t s
  | doubles mixed left right =>
      rw [compareFloats, ← Std.OrientedCmp.eq_swap]
      exact .doubles mixed.symm right left

theorem Compared.numbers (compared : Compared l r o) {a : Int} (left : l.rank? = some a) :
    ∃ b, r.rank? = some b ∧ o = compare a b := by
  cases compared with
  | ints i j =>
      cases left
      exact ⟨_, rfl, (compare_intRank _ _).symm⟩
  | strings s t => cases left
  | doubles mixed first second =>
      rw [rank?_of_asFloat first] at left
      cases left
      exact ⟨_, rank?_of_asFloat second, rfl⟩

theorem Compared.texts {s : String} (compared : Compared (.string s) r o) :
    ∃ t, r = .string t ∧ o = compare s t := by
  cases compared with
  | strings s t => exact ⟨t, rfl, rfl⟩
  | doubles mixed first second => cases first

theorem Compared.number_or_text (compared : Compared l r o) :
    (∃ a, l.rank? = some a) ∨ ∃ s, l = .string s := by
  cases compared with
  | ints i j => exact .inl ⟨_, rfl⟩
  | strings s t => exact .inr ⟨s, rfl⟩
  | doubles mixed first second => exact .inl ⟨_, rank?_of_asFloat first⟩

theorem Compared.trans {o' o'' : Ordering} (first : Compared l m o) (second : Compared m r o')
    (third : Compared l r o'') :
    (o = .lt → o' = .lt → o'' = .lt) ∧ (o = .eq → o' = .eq → o'' = .eq) := by
  rcases first.number_or_text with ⟨a, left⟩ | ⟨s, rfl⟩
  · obtain ⟨b, mid, rfl⟩ := first.numbers left
    obtain ⟨c, right, rfl⟩ := second.numbers mid
    obtain ⟨c', right', rfl⟩ := third.numbers left
    obtain rfl := Option.some.inj (right.symm.trans right')
    exact ⟨Std.TransCmp.lt_trans, Std.TransCmp.eq_trans⟩
  · obtain ⟨t, rfl, rfl⟩ := first.texts
    obtain ⟨u, rfl, rfl⟩ := second.texts
    obtain ⟨u', same, rfl⟩ := third.texts
    cases same
    exact ⟨Std.TransCmp.lt_trans, Std.TransCmp.eq_trans⟩

/-!
## Equality
-/

theorem equality_of_compared (compared : Compared l r o) : equality l r = .ok (o = .eq) := by
  cases compared with
  | ints a b =>
      simp only [equality, Std.compare_eq_iff_eq, Int64.toInt_inj]
  | strings s t =>
      simp [equality, Value.isNumeric]
  | @doubles _ _ x y mixed left right =>
      unfold equality
      split
      case h_1 => simp [Value.type] at mixed
      case h_2 =>
        simp [isNumeric_of_asFloat left, isNumeric_of_asFloat right, left, right]
        rfl

theorem equality_of_not_numeric (other : (l.isNumeric && r.isNumeric) = false) :
    equality l r = .ok (l = r) := by
  unfold equality
  split
  case h_1 => cases other
  case h_2 => simp [other]

theorem compared_of_equality (numeric : (l.isNumeric && r.isNumeric) = true) {b : Bool}
    (succeeds : equality l r = .ok b) : ∃ o, Compared l r o := by
  unfold equality at succeeds
  split at succeeds
  case h_1 a b => exact ⟨_, .ints a b⟩
  case h_2 notInts =>
    rw [if_pos numeric] at succeeds
    cases left : l.asFloat with
    | error e =>
        rw [left] at succeeds
        cases succeeds
    | ok x =>
        cases right : r.asFloat with
        | error e =>
            rw [left, right] at succeeds
            cases succeeds
        | ok y => exact ⟨_, .doubles (mixed_of_isNumeric numeric notInts) left right⟩

theorem equality_eq_ok_iff {b : Bool} : equality l r = .ok b ↔
    (∃ o, Compared l r o ∧ b = decide (o = .eq)) ∨
      (l.isNumeric && r.isNumeric) = false ∧ b = decide (l = r) := by
  constructor
  · intro succeeds
    cases numeric : l.isNumeric && r.isNumeric with
    | true =>
        obtain ⟨o, compared⟩ := compared_of_equality numeric succeeds
        rw [equality_of_compared compared] at succeeds
        exact .inl ⟨o, compared, (Except.ok.inj succeeds).symm⟩
    | false =>
        rw [equality_of_not_numeric numeric] at succeeds
        exact .inr ⟨rfl, (Except.ok.inj succeeds).symm⟩
  · rintro (⟨o, compared, rfl⟩ | ⟨other, rfl⟩)
    · exact equality_of_compared compared
    · exact equality_of_not_numeric other

theorem equality_symm {b : Bool} (succeeds : equality l r = .ok b) : equality r l = .ok b := by
  rw [equality_eq_ok_iff] at succeeds ⊢
  rcases succeeds with ⟨o, compared, rfl⟩ | ⟨other, rfl⟩
  · refine .inl ⟨o.swap, compared.swap, ?_⟩
    cases o <;> rfl
  · refine .inr ⟨by rw [Bool.and_comm, other], ?_⟩
    simp only [eq_comm]

theorem equality_refl (v : Value) : equality v v = .ok true := by
  cases v with
  | int n => simp [equality]
  | float x =>
      have same : compareFloats x x = .eq := Std.compare_self
      rw [equality_of_compared (.doubles (.inl rfl) rfl rfl), same]
      rfl
  | _ =>
      rw [equality_of_not_numeric rfl]
      simp

theorem isNumeric_of_rank? {v : Value} {a : Int} (number : v.rank? = some a) :
    v.isNumeric = true := by
  cases v with
  | int n => rfl
  | float x => rfl
  | _ => cases number

theorem same_of_equality (equal : equality l r = .ok true) :
    l = r ∨ ∃ a, l.rank? = some a ∧ r.rank? = some a := by
  rcases equality_eq_ok_iff.1 equal with ⟨o, compared, same⟩ | ⟨-, same⟩
  · obtain rfl := of_decide_eq_true same.symm
    rcases compared.number_or_text with ⟨a, left⟩ | ⟨s, rfl⟩
    · obtain ⟨b, right, places⟩ := compared.numbers left
      obtain rfl := Std.compare_eq_iff_eq.1 places.symm
      exact .inr ⟨a, left, right⟩
    · obtain ⟨t, rfl, texts⟩ := compared.texts
      obtain rfl := Std.compare_eq_iff_eq.1 texts.symm
      exact .inl rfl
  · exact .inl (of_decide_eq_true same.symm)

theorem equality_of_rank? {a : Int} (left : l.rank? = some a) (right : r.rank? = some a) {b : Bool}
    (succeeds : equality l r = .ok b) : b = true := by
  have numeric : (l.isNumeric && r.isNumeric) = true := by
    rw [isNumeric_of_rank? left, isNumeric_of_rank? right]
    rfl
  obtain ⟨o, compared⟩ := compared_of_equality numeric succeeds
  obtain ⟨a', right', rfl⟩ := compared.numbers left
  rw [right] at right'
  cases right'
  rw [equality_of_compared compared, Std.compare_self] at succeeds
  exact (Except.ok.inj succeeds).symm

theorem equality_trans (first : equality l m = .ok true) (second : equality m r = .ok true)
    {b : Bool} (third : equality l r = .ok b) : b = true := by
  rcases same_of_equality first with rfl | ⟨a, left, mid⟩
  · rw [second] at third
    exact (Except.ok.inj third).symm
  · rcases same_of_equality second with rfl | ⟨a', mid', right⟩
    · rw [first] at third
      exact (Except.ok.inj third).symm
    · rw [mid] at mid'
      cases mid'
      exact equality_of_rank? left right third

/-!
## The operators
-/

def Says (op : Operator) (l r : Value) (b : Bool) : Prop :=
  op.applyBetween l r = .ok (.bool b)

def Succeeds (op : Operator) (l r : Value) : Prop :=
  ∃ v, op.applyBetween l r = .ok v

def orders : List Operator :=
  [.less, .greater, .lessEqual, .greaterEqual]

theorem says_equal_iff {b : Bool} : Says .equal l r b ↔ equality l r = .ok b := by
  unfold Says
  simp only [applyBetween, comparison]
  cases equality l r with
  | error e => simp [Except.map]
  | ok b' => simp [Except.map]

theorem says_notEqual_iff {b : Bool} : Says .notEqual l r b ↔ equality l r = .ok !b := by
  unfold Says
  simp only [applyBetween, comparison]
  cases equality l r with
  | error e => simp [Except.map]
  | ok b' => cases b <;> simp [Except.map]

theorem says_of_compared (compared : Compared l r o) :
    Says .less l r (o = .lt) ∧ Says .greater l r (o = .gt) ∧ Says .lessEqual l r (o ≠ .gt) ∧
      Says .greaterEqual l r (o ≠ .lt) := by
  have found := order?_eq_some_iff.2 compared
  simp [Says, applyBetween, comparison, found, holds?]

theorem compared_of_succeeds {op : Operator} (order : op ∈ orders) (succeeds : Succeeds op l r) :
    ∃ o, Compared l r o := by
  obtain ⟨v, done⟩ := succeeds
  cases found : order? l r with
  | some o => exact ⟨o, order?_eq_some_iff.1 found⟩
  | none =>
      simp only [orders, List.mem_cons, List.not_mem_nil, or_false] at order
      rcases order with rfl | rfl | rfl | rfl <;> simp [applyBetween, comparison, found] at done

theorem compared_of_less (less : Says .less l r true) : Compared l r .lt := by
  have order : Operator.less ∈ orders := by decide
  obtain ⟨o, compared⟩ := compared_of_succeeds order ⟨_, less⟩
  have told := less.symm.trans (says_of_compared compared).1
  have same : o = .lt := by simpa using told
  exact same ▸ compared

theorem less_trans (first : Says .less l m true) (second : Says .less m r true)
    (third : Succeeds .less l r) : Says .less l r true := by
  obtain ⟨o, compared⟩ := compared_of_succeeds (by decide) third
  have less := ((compared_of_less first).trans (compared_of_less second) compared).1 rfl rfl
  rw [less] at compared
  exact (says_of_compared compared).1

theorem exists_map_ok_iff {x : Except Cause Bool} {f : Bool → Value} :
    (∃ v, x.map f = .ok v) ↔ ∃ b, x = .ok b := by
  cases x with
  | error e => simp [Except.map]
  | ok b => simp [Except.map]

theorem succeeds_equal_iff : Succeeds .equal l r ↔ ∃ b, equality l r = .ok b :=
  exists_map_ok_iff

theorem succeeds_notEqual_iff : Succeeds .notEqual l r ↔ ∃ b, equality l r = .ok b :=
  exists_map_ok_iff

/-- What the comparison operators say of three values. -/
structure OneOrder (l m r : Value) : Prop where
  opposite : (Succeeds .notEqual l r ↔ Succeeds .equal l r) ∧
    ∀ b, Says .notEqual l r b ↔ Says .equal l r !b
  ordered : ∀ op ∈ orders, Succeeds op l r → ∃ below same above : Bool,
    Says .less l r below ∧ Says .equal l r same ∧ Says .greater l r above ∧
      [below, same, above].count true = 1 ∧ Says .lessEqual l r (!above) ∧
      Says .greaterEqual l r (!below) ∧ Says .greater r l below
  refl : Says .equal l l true
  symm : (Succeeds .equal l r ↔ Succeeds .equal r l) ∧ ∀ b, Says .equal l r b ↔ Says .equal r l b
  lessTrans : Says .less l m true → Says .less m r true → Succeeds .less l r → Says .less l r true
  equalTrans : Says .equal l m true → Says .equal m r true → Succeeds .equal l r →
    Says .equal l r true

/-- The comparison operators go by one order, also across integers and doubles. -/
theorem comparisons_one_order (l m r : Value) : OneOrder l m r := by
  constructor
  case opposite =>
    refine ⟨succeeds_notEqual_iff.trans succeeds_equal_iff.symm, fun b => ?_⟩
    rw [says_notEqual_iff, says_equal_iff]
  case ordered =>
    intro op order succeeds
    obtain ⟨o, compared⟩ := compared_of_succeeds order succeeds
    obtain ⟨less, greater, lessEqual, greaterEqual⟩ := says_of_compared compared
    have equal := says_equal_iff.2 (equality_of_compared compared)
    have swapped := (says_of_compared compared.swap).2.1
    refine ⟨_, _, _, less, equal, greater, ?_, ?_, ?_, ?_⟩
    · cases o <;> rfl
    · simpa using lessEqual
    · simpa using greaterEqual
    · cases o <;> exact swapped
  case refl => exact says_equal_iff.2 (equality_refl l)
  case symm =>
    have symm : ∀ b, equality l r = .ok b ↔ equality r l = .ok b := fun b =>
      ⟨equality_symm, equality_symm⟩
    refine ⟨?_, fun b => ?_⟩
    · rw [succeeds_equal_iff, succeeds_equal_iff]
      simp only [symm]
    · rw [says_equal_iff, says_equal_iff]
      exact symm b
  case lessTrans => exact less_trans
  case equalTrans =>
    intro first second third
    obtain ⟨b, told⟩ := succeeds_equal_iff.1 third
    rw [says_equal_iff] at first second
    rw [equality_trans first second told] at told
    exact says_equal_iff.2 told

/-- The double 1.5 lies between the integers 1 and 2. -/
theorem comparisons_one_order_mixed :
    Says .less (.int 1) (.float (.ofBits 0x3FF8000000000000)) true ∧
      Says .less (.float (.ofBits 0x3FF8000000000000)) (.int 2) true ∧
      Says .less (.int 1) (.int 2) true ∧
        Says .equal (.float (.ofBits 0x4000000000000000)) (.int 2) true := by
  have checked :
      Operator.less.applyBetween (.int 1) (.float (.ofBits 0x3FF8000000000000)) = .ok (.bool true) ∧
        Operator.less.applyBetween (.float (.ofBits 0x3FF8000000000000)) (.int 2) =
          .ok (.bool true) ∧
        Operator.less.applyBetween (.int 1) (.int 2) = .ok (.bool true) ∧
        Operator.equal.applyBetween (.int 2) (.float (.ofBits 0x4000000000000000)) =
          .ok (.bool true) := by
    decide +kernel
  obtain ⟨first, second, third, equal⟩ := checked
  have order := comparisons_one_order (.int 1) (.float (.ofBits 0x3FF8000000000000)) (.int 2)
  exact ⟨first, second, order.lessTrans first second ⟨_, third⟩,
    ((comparisons_one_order (.int 2) .null
      (.float (.ofBits 0x4000000000000000))).symm.2 true).1 equal⟩

end Operator

end LineScript
