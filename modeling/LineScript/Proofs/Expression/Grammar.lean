import LineScript.Operator.Apply
import LineScript.Token

/-!
# The grammar of expressions

Expressions as trees, the tokens of which they are written, and the value that a recursive evaluator
gives them.  `Expr.Fits` says which trees can be written without further parentheses: an operator
takes on its left what binds at least as tightly and on its right what binds more tightly.
`Expr.Composed` is a wider grammar with any number of prefix operators before an operand, and
`Expr.clashes` says whether two of them meet, which they never do in the narrower one.
-/

namespace LineScript

inductive Expr where
  | literal (value : Value)
  | name (text : String)
  /-- An expression in parentheses. -/
  | group (inner : Expr)
  /-- An operator before its operand. -/
  | before (op : Operator) (operand : Expr)
  /-- An operator between its operands. -/
  | between (op : Operator) (left right : Expr)
  deriving DecidableEq, Repr

namespace Expr

def kinds : Expr → List TokenKind
  | .literal v => [.literal v]
  | .name s => [.name s]
  | .group e => .bracket .paren .opening :: e.kinds ++ [.bracket .paren .closing]
  | .before op e => .operator op :: e.kinds
  | .between op l r => l.kinds ++ .operator op :: r.kinds

def first : Expr → TokenKind
  | .literal v => .literal v
  | .name s => .name s
  | .group _ => .bracket .paren .opening
  | .before op _ => .operator op
  | .between _ l _ => l.first

def names : Expr → List String
  | .literal _ => []
  | .name s => [s]
  | .group e => e.names
  | .before _ e => e.names
  | .between _ l r => l.names ++ r.names

/-- The number of parentheses around the innermost operand. -/
def depth : Expr → Nat
  | .literal _ => 0
  | .name _ => 0
  | .group e => e.depth + 1
  | .before _ e => e.depth
  | .between _ l r => max l.depth r.depth

/-- The most parentheses around an operand after which its priority is still below that of an
assignment. -/
def maxDepth : Nat := 99

def isPrimary : Expr → Bool
  | .literal _ => true
  | .name _ => true
  | .group _ => true
  | _ => false

def isChain : Expr → Bool
  | .between op l _ => op = .pow && (l.isPrimary || l.isChain)
  | _ => false

def endsNegated : Expr → Bool
  | .before op e => op = .negate || e.endsNegated
  | .between _ _ r => r.endsNegated
  | _ => false

def isPower : Expr → Bool
  | .between op _ _ => op = .pow
  | _ => false

def isNegatedPower : Expr → Bool
  | .before op e => op = .negate && e.isPower
  | _ => false

def startsPrefixed : Expr → Bool
  | .before _ _ => true
  | .between _ l _ => l.startsPrefixed
  | _ => false

/-- The expression can stand where only operators of at least the priority `floor` may.  A prefix
operator is applied to a primary; a `-` before a chain of powers is applied to the whole chain, so
it binds less tightly than a power, and a `-` never ends the left operand of one. -/
def Fits : Int → Expr → Prop
  | _, .literal _ => True
  | _, .name _ => True
  | _, .group e => e.Fits Priority.logical
  | floor, .before op e =>
      op.isUnary = true ∧ e.Fits Priority.power ∧
        (e.isPrimary = true ∨
          op = .negate ∧ e.isChain = true ∧ floor < Priority.power)
  | floor, .between op l r =>
      (op.isUnary = false ∧ op.isAssignment = false) ∧ floor ≤ op.priority ∧
        l.Fits op.priority ∧ r.Fits (op.priority + 1) ∧
        (op = .pow → l.endsNegated = false)

instance decidableFits : (floor : Int) → (e : Expr) → Decidable (e.Fits floor)
  | _, .literal _ => inferInstanceAs (Decidable True)
  | _, .name _ => inferInstanceAs (Decidable True)
  | _, .group e => decidableFits Priority.logical e
  | floor, .before op e =>
      have := decidableFits Priority.power e
      inferInstanceAs (Decidable (op.isUnary = true ∧ e.Fits Priority.power ∧
        (e.isPrimary = true ∨ op = .negate ∧ e.isChain = true ∧ floor < Priority.power)))
  | floor, .between op l r =>
      have := decidableFits op.priority l
      have := decidableFits (op.priority + 1) r
      inferInstanceAs (Decidable ((op.isUnary = false ∧ op.isAssignment = false) ∧
        floor ≤ op.priority ∧ l.Fits op.priority ∧ r.Fits (op.priority + 1) ∧
        (op = .pow → l.endsNegated = false)))

/-- The expression can stand where only operators of at least the priority `floor` may stand between
operands, and any number of prefix operators before each.  A `-` is applied to all powers that
follow it, a `!` to none. -/
def Composed : Int → Expr → Prop
  | _, .literal _ => True
  | _, .name _ => True
  | _, .group e => e.Composed Priority.logical
  | _, .before op e =>
      op.isUnary = true ∧ e.Composed Priority.power ∧ (op = .not → e.isPower = false)
  | floor, .between op l r =>
      (op.isUnary = false ∧ op.isAssignment = false) ∧ floor ≤ op.priority ∧
        l.Composed op.priority ∧ r.Composed (op.priority + 1) ∧
        (op = .pow → l.endsNegated = false)

instance decidableComposed : (floor : Int) → (e : Expr) → Decidable (e.Composed floor)
  | _, .literal _ => inferInstanceAs (Decidable True)
  | _, .name _ => inferInstanceAs (Decidable True)
  | _, .group e => decidableComposed Priority.logical e
  | _, .before op e =>
      have := decidableComposed Priority.power e
      inferInstanceAs (Decidable (op.isUnary = true ∧ e.Composed Priority.power ∧
        (op = .not → e.isPower = false)))
  | floor, .between op l r =>
      have := decidableComposed op.priority l
      have := decidableComposed (op.priority + 1) r
      inferInstanceAs (Decidable ((op.isUnary = false ∧ op.isAssignment = false) ∧
        floor ≤ op.priority ∧ l.Composed op.priority ∧ r.Composed (op.priority + 1) ∧
        (op = .pow → l.endsNegated = false)))

/-- Somewhere a prefix operator stands directly before another one, or the right operand of a power
is a `-` before a power. -/
def clashes : Expr → Bool
  | .literal _ => false
  | .name _ => false
  | .group e => e.clashes
  | .before _ e => e.startsPrefixed || e.clashes
  | .between op l r => l.clashes || r.clashes || (op = .pow && r.isNegatedPower)

/-- An expression that is written as its grammar says. -/
def WellFormed (e : Expr) : Prop :=
  e.Fits Priority.logical

instance (e : Expr) : Decidable e.WellFormed :=
  inferInstanceAs (Decidable (e.Fits Priority.logical))

theorem not_isPower_of_isPrimary {e : Expr} (primary : e.isPrimary = true) : e.isPower = false := by
  cases e <;> simp_all [isPrimary, isPower]

theorem startsPrefixed_of_isPrimary {e : Expr} (primary : e.isPrimary = true) :
    e.startsPrefixed = false := by
  cases e <;> simp_all [isPrimary, startsPrefixed]

theorem startsPrefixed_of_isChain {e : Expr} (chain : e.isChain = true) :
    e.startsPrefixed = false := by
  induction e with
  | between op l r ihl _ =>
      simp only [isChain, Bool.and_eq_true, Bool.or_eq_true] at chain
      rcases chain.2 with primary | chain
      · simpa [startsPrefixed] using startsPrefixed_of_isPrimary primary
      · simpa [startsPrefixed] using ihl chain
  | _ => simp [isChain] at chain

theorem Fits.composed {floor : Int} {e : Expr} (fits : e.Fits floor) : e.Composed floor := by
  induction e generalizing floor with
  | literal v => trivial
  | name s => trivial
  | group e ih => exact ih fits
  | before op e ih =>
      obtain ⟨unary, operand, shape⟩ := fits
      refine ⟨unary, ih operand, ?_⟩
      rintro rfl
      rcases shape with primary | ⟨negation, -⟩
      · exact not_isPower_of_isPrimary primary
      · cases negation
  | between op l r ihl ihr =>
      obtain ⟨binary, low, left, right, ends⟩ := fits
      exact ⟨binary, low, ihl left, ihr right, ends⟩

theorem Fits.clashes {floor : Int} {e : Expr} (fits : e.Fits floor) : e.clashes = false := by
  induction e generalizing floor with
  | literal v => rfl
  | name s => rfl
  | group e ih => exact ih fits
  | before op e ih =>
      obtain ⟨-, operand, shape⟩ := fits
      have first : e.startsPrefixed = false := by
        rcases shape with primary | ⟨-, chain, -⟩
        · exact startsPrefixed_of_isPrimary primary
        · exact startsPrefixed_of_isChain chain
      simp [Expr.clashes, first, ih operand]
  | between op l r ihl ihr =>
      obtain ⟨-, -, left, right, -⟩ := fits
      have apart : op = .pow → r.isNegatedPower = false := by
        rintro rfl
        cases r with
        | before op e =>
            obtain ⟨-, -, primary | ⟨-, -, low⟩⟩ := right
            · simp [isNegatedPower, not_isPower_of_isPrimary primary]
            · exact absurd low (by decide)
        | _ => rfl
      simpa [Expr.clashes, ihl left, ihr right] using apart

/-- The value of an expression.  Both operands of an operator are always evaluated, the left one
first. -/
def eval (look : String → Except Cause Value) : Expr → Except Cause Value
  | .literal v => .ok v
  | .name s => look s
  | .group e => e.eval look
  | .before op e => do
      let v ← e.eval look
      op.applyBefore v
  | .between op l r => do
      let a ← l.eval look
      let b ← r.eval look
      op.applyBetween a b

end Expr

end LineScript
