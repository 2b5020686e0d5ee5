import LineScript.Operator.Apply

/-!
# Operands of a wrong type

A type mismatch between two operands is found by `&&` and `||` only: the other operators are lenient
(`Operator.lenient_of_decider?`), since operands of a type that they have no result for are refused
as unhandled.  The logical operators reject an operand that is no boolean, but look at the right one
only where the left one does not decide (`Operator.rejects_iff`).  So with a right operand that is
no boolean it is the value of the left one that matters, and in no other case does a value matter
(`Operator.rejections_by_types`).
-/

namespace LineScript

variable {α β : Type}

def Lenient (x : Except Cause α) : Prop :=
  ∀ cause, x = .error cause → cause.kind ≠ .wrongType

theorem lenient_ok (a : α) : Lenient (.ok a) := by
  rintro _ ⟨⟩

theorem lenient_error {cause : Cause} (other : cause.kind ≠ .wrongType) :
    Lenient (.error cause : Except Cause α) := by
  rintro _ ⟨⟩
  exact other

theorem lenient_unhandled (refusal : Unhandled) :
    Lenient (.error (.unhandled refusal) : Except Cause α) :=
  lenient_error (by rintro ⟨⟩)

theorem Lenient.bind {x : Except Cause α} (lenient : Lenient x) {f : α → Except Cause β}
    (rest : ∀ a, Lenient (f a)) : Lenient (x >>= f) := by
  cases x with
  | error cause => exact lenient_error (lenient cause rfl)
  | ok a => exact rest a

theorem Lenient.map {x : Except Cause α} (lenient : Lenient x) (f : α → β) : Lenient (x.map f) := by
  cases x with
  | error cause => exact lenient_error (lenient cause rfl)
  | ok a => exact lenient_ok (f a)

theorem Value.lenient_asFloat {v : Value} (numeric : v.isNumeric = true) : Lenient v.asFloat := by
  cases v with
  | int n =>
      simp only [asFloat]
      split
      · exact lenient_ok _
      · exact lenient_error nofun
  | float x => exact lenient_ok x
  | _ => cases numeric

namespace Operator

/-!
## Arithmetic and comparison
-/

theorem lenient_onInts (op : Operator) (a b : Int64) : Lenient (op.onInts a b) := by
  unfold onInts
  simp only
  split
  case h_1 | h_2 | h_3 =>
    split
    · exact lenient_ok _
    · exact lenient_unhandled _
  case h_4 =>
    split
    · exact lenient_error nofun
    split
    · exact lenient_ok _
    · exact lenient_unhandled _
  case h_5 =>
    split
    · exact lenient_error nofun
    split
    · exact lenient_unhandled _
    split
    · exact lenient_ok _
    · exact lenient_unhandled _
  case h_6 => exact lenient_error nofun

theorem lenient_onFloats (op : Operator) (a b : Float) : Lenient (op.onFloats a b) := by
  unfold onFloats
  split
  any_goals exact lenient_ok _
  · split
    · exact lenient_error nofun
    · exact lenient_ok _
  · exact lenient_error nofun
  · exact lenient_error nofun

variable {l l' r r' : Value}

theorem lenient_doubles (numeric : (l.isNumeric && r.isNumeric) = true)
    {f : Float → Float → Except Cause α} (rest : ∀ a b, Lenient (f a b)) :
    Lenient (do f (← l.asFloat) (← r.asFloat)) := by
  rw [Bool.and_eq_true] at numeric
  exact (Value.lenient_asFloat numeric.1).bind fun a =>
    (Value.lenient_asFloat numeric.2).bind fun b => rest a b

theorem lenient_arithmetic (op : Operator) (l r : Value) : Lenient (op.arithmetic l r) := by
  unfold arithmetic
  split
  · exact lenient_ok _
  split
  · exact (lenient_onInts op _ _).map _
  split
  · rename_i numeric
    exact lenient_doubles numeric fun a b => (lenient_onFloats op a b).bind fun _ => lenient_ok _
  · exact lenient_error nofun

theorem lenient_exponentOf (n : Int64) : Lenient (exponentOf n) := by
  unfold exponentOf
  split
  · exact lenient_ok _
  · exact lenient_error nofun

theorem lenient_power (l r : Value) : Lenient (power l r) := by
  have doubles (numeric : (l.isNumeric && r.isNumeric) = true) :
      Lenient (do
        let b ← l.asFloat
        let e ← r.asFloat
        return .float (b.pow e) : Except Cause Value) :=
    lenient_doubles numeric fun b e => lenient_ok _
  unfold power
  simp only
  split
  · split
    · exact doubles rfl
    · refine (lenient_exponentOf _).bind fun n => ?_
      split
      · exact lenient_ok _
      · exact lenient_error nofun
  · split
    · rename_i numeric
      exact doubles numeric
    · exact lenient_error nofun

theorem lenient_equality (l r : Value) : Lenient (equality l r) := by
  unfold equality
  split
  · exact lenient_ok _
  split
  · rename_i numeric
    exact lenient_doubles numeric fun a b => lenient_ok _
  · exact lenient_ok _

theorem lenient_comparison (op : Operator) (l r : Value) : Lenient (op.comparison l r) := by
  unfold comparison
  split
  · exact (lenient_equality l r).map _
  · exact (lenient_equality l r).map _
  split
  · exact lenient_error nofun
  split
  · exact lenient_ok _
  · exact lenient_error nofun

/-!
## Logic
-/

/-- The left operand with which a logical operator does not look at the right one. -/
def decider? : Operator → Option Value
  | .and => some (.bool false)
  | .or => some (.bool true)
  | _ => none

/-- The operator fails because of the type of an operand. -/
def Rejects (op : Operator) (l r : Value) : Prop :=
  ∃ cause, op.applyBetween l r = .error cause ∧ cause.kind = .wrongType

theorem lenient_of_decider? {op : Operator} (other : op.decider? = none) (l r : Value) :
    Lenient (op.applyBetween l r) := by
  cases op
  case and => cases other
  case or => cases other
  case pow => exact lenient_power l r
  case add | sub | mul | div | mod =>
    simp only [applyBetween]
    exact lenient_arithmetic _ l r
  case equal | notEqual | less | greater | lessEqual | greaterEqual =>
    simp only [applyBetween]
    exact lenient_comparison _ l r
  all_goals exact lenient_error nofun

theorem asBool_of_type {v : Value} (other : v.type ≠ .bool) :
    v.asBool = .error (.mismatch (.notBool v)) := by
  cases v with
  | bool b => exact absurd rfl other
  | _ => rfl

theorem exists_bool {v : Value} (type : v.type = .bool) : ∃ b, v = .bool b := by
  cases v with
  | bool b => exact ⟨b, rfl⟩
  | _ => cases type

theorem applyBetween_bool {op : Operator} {d : Value} (logical : op.decider? = some d) (a : Bool) :
    op.applyBetween (.bool a) r = if .bool a = d then .ok d else r.asBool.map .bool := by
  have looks : (do return .bool (← r.asBool) : Except Cause Value) = r.asBool.map .bool := by
    cases r.asBool <;> rfl
  cases op
  case and =>
    cases logical
    cases a
    · rfl
    · exact looks
  case or =>
    cases logical
    cases a
    · exact looks
    · rfl
  all_goals cases logical

theorem applyBetween_logical {op : Operator} {d : Value} (logical : op.decider? = some d) :
    op.applyBetween l r =
      if l.type ≠ .bool then .error (.mismatch (.notBool l))
      else if l = d then .ok d
      else if r.type ≠ .bool then .error (.mismatch (.notBool r))
      else .ok r := by
  by_cases left : l.type = .bool
  case neg =>
    rw [if_pos left]
    cases op
    case and | or =>
      simp only [applyBetween, logic, asBool_of_type left]
      rfl
    all_goals cases logical
  case pos =>
    obtain ⟨a, rfl⟩ := exists_bool left
    have looks : ¬ (Value.bool a).type ≠ .bool := fun other => other left
    rw [applyBetween_bool logical, if_neg looks]
    congr 1
    by_cases right : r.type = .bool
    case neg =>
      rw [asBool_of_type right, if_pos right]
      rfl
    case pos =>
      obtain ⟨b, rfl⟩ := exists_bool right
      rfl

theorem type_of_decider? {op : Operator} {d : Value} (logical : op.decider? = some d) :
    d.type = .bool := by
  cases op <;> cases logical <;> rfl

theorem rejects_iff {op : Operator} : op.Rejects l r ↔
    ∃ d, op.decider? = some d ∧ l ≠ d ∧ (l.type ≠ .bool ∨ r.type ≠ .bool) := by
  cases logical : op.decider? with
  | none =>
      refine ⟨fun ⟨cause, fails, type⟩ => ?_, fun ⟨d, other, _⟩ => nomatch other⟩
      exact absurd type (lenient_of_decider? logical l r cause fails)
  | some d =>
      have boolean := type_of_decider? logical
      unfold Rejects
      rw [applyBetween_logical logical]
      simp only [Option.some.injEq, exists_eq_left']
      by_cases left : l.type = .bool
      case neg =>
        have differs : l ≠ d := fun same => left (same ▸ boolean)
        simp [left, differs, Cause.kind]
      case pos =>
        by_cases decides : l = d
        · simp [decides, boolean]
        · by_cases right : r.type = .bool
          · simp [left, decides, right]
          · simp [left, decides, right, Cause.kind]

theorem decides_iff_decides {op : Operator} {d : Value} (logical : op.decider? = some d)
    (left : l.type = .bool) (left' : l'.type = .bool) : (l = d ↔ l' = d) ↔ l = l' := by
  obtain ⟨a, rfl⟩ := exists_bool left
  obtain ⟨a', rfl⟩ := exists_bool left'
  obtain ⟨b, rfl⟩ := exists_bool (type_of_decider? logical)
  simp only [Value.bool.injEq]
  cases a <;> cases a' <;> cases b <;> decide

/-- Whether operands are rejected for their types depends on the types only, except that a logical
operator with a right operand that is no boolean tells the two booleans on its left apart.  It
succeeds if the left operand decides or both operands are booleans. -/
theorem rejections_by_types {op : Operator} (left : l.type = l'.type) (right : r.type = r'.type) :
    ((op.Rejects l r ↔ op.Rejects l' r') ↔
      ¬ ∃ d, op.decider? = some d ∧ r.type ≠ .bool ∧ l.type = .bool ∧ l ≠ l') ∧
    ∀ d, op.decider? = some d → ((∃ v, op.applyBetween l r = .ok v) ↔
      l = d ∨ l.type = .bool ∧ r.type = .bool) := by
  constructor
  · rw [rejects_iff, rejects_iff, ← left, ← right]
    cases logical : op.decider? with
    | none => simp
    | some d =>
        simp only [Option.some.injEq, exists_eq_left']
        by_cases boolean : l.type = .bool
        case pos =>
          have decides := decides_iff_decides logical boolean (left ▸ boolean)
          by_cases other : r.type = .bool
          · simp [boolean, other]
          · simp [boolean, other, ← decides, Decidable.not_iff_not]
        case neg =>
          have type := type_of_decider? logical
          have differs : l ≠ d := fun same => boolean (same ▸ type)
          have differs' : l' ≠ d := fun same => boolean (left.trans (same ▸ type))
          simp [boolean, differs, differs']
  · intro d logical
    rw [applyBetween_logical logical]
    by_cases boolean : l.type = .bool
    case pos =>
      by_cases decides : l = d
      · simp [decides, type_of_decider? logical]
      · by_cases other : r.type = .bool <;> simp [boolean, decides, other]
    case neg =>
      have differs : l ≠ d := fun same => boolean (same ▸ type_of_decider? logical)
      simp [boolean, differs]

/-- `true && 3` and `true && 7` are rejected alike, `false && 3` and `true && 3` are not, and
`true || "yes"` is decided by its left operand. -/
theorem rejections_by_types_logical :
    (Operator.and.Rejects (.bool true) (.int 3) ↔ Operator.and.Rejects (.bool true) (.int 7)) ∧
      ¬ (Operator.and.Rejects (.bool false) (.int 3) ↔ Operator.and.Rejects (.bool true) (.int 3)) ∧
      ∃ v, Operator.or.applyBetween (.bool true) (.string "yes") = .ok v := by
  have sameLeft := @rejections_by_types (.bool true) (.bool true) (.int 3) (.int 7) .and rfl rfl
  have other := @rejections_by_types (.bool false) (.bool true) (.int 3) (.int 3) .and rfl rfl
  have decided := @rejections_by_types (.bool true) (.bool true) (.string "yes") (.string "yes") .or
    rfl rfl
  refine ⟨sameLeft.1.2 fun ⟨d, _, _, _, differs⟩ => differs rfl, fun same => ?_,
    (decided.2 (.bool true) rfl).2 (.inl rfl)⟩
  exact other.1.1 same ⟨.bool false, rfl, nofun, rfl, nofun⟩

/-- `false && 3` is false, and `true && 3` is rejected. -/
theorem rejection_by_value :
    Operator.and.applyBetween (.bool false) (.int 3) = .ok (.bool false) ∧
      Operator.and.Rejects (.bool true) (.int 3) :=
  ⟨rfl, _, rfl, rfl⟩

end Operator

end LineScript
