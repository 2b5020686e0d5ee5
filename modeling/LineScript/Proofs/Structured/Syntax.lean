import LineScript.Proofs.Expression.Grammar
import LineScript.Proofs.Layout
import LineScript.Proofs.Lexeme.Spelling

/-!
# Structured programs

Programs of assignments, output, blocks, branches and loops as trees, and how they are written: one
statement on a line, a `{` at the end of the line of its header and a `}` alone on its line.
-/

namespace LineScript

inductive Assignment where
  | declare (type : ValueType) (name : String) (value : Expr)
  | set (name : String) (value : Expr)
  /-- An assignment that combines the old value with the new one, such as `x += e`. -/
  | change (op : Operator) (name : String) (value : Expr)
  deriving DecidableEq, Repr

inductive Operand where
  | literal (value : Value)
  | name (text : String)
  deriving DecidableEq, Repr

mutual

inductive Statement where
  | assign (a : Assignment)
  | println (operands : List Operand)
  | block (body : Body)
  | branch (condition : Expr) (body : Body) (rest : Alternatives)
  | «while» (condition : Expr) (body : Body)
  | «for» (init : Assignment) (condition : Expr) (step : Assignment) (body : Body)
  | signal (s : Signal)

inductive Body where
  | nil
  | cons (first : Statement) (rest : Body)

/-- What stands after the block of an `if`. -/
inductive Alternatives where
  | none
  | otherwise (body : Body)
  | elseIf (condition : Expr) (body : Body) (rest : Alternatives)

end

/-!
## Tokens
-/

namespace Assignment

def declared : Assignment → Option ValueType
  | .declare t _ _ => some t
  | _ => none

def name : Assignment → String
  | .declare _ x _ => x
  | .set x _ => x
  | .change _ x _ => x

def op : Assignment → Operator
  | .change op _ _ => op
  | _ => .assign

def value : Assignment → Expr
  | .declare _ _ e => e
  | .set _ e => e
  | .change _ _ e => e

def kinds (a : Assignment) : List TokenKind :=
  a.declared.toList.map .type ++ .name a.name :: .operator a.op :: a.value.kinds

end Assignment

def Operand.kind : Operand → TokenKind
  | .literal v => .literal v
  | .name s => .name s

theorem Expr.kinds_ne_nil (e : Expr) : e.kinds ≠ [] := by
  cases e <;> simp [Expr.kinds]

theorem Assignment.kinds_ne_nil (a : Assignment) : a.kinds ≠ [] := by
  simp [Assignment.kinds]

def operandKinds : List Operand → List TokenKind
  | [] => []
  | [o] => [o.kind]
  | o :: p :: rest => o.kind :: .comma :: operandKinds (p :: rest)

def forKinds (init : Assignment) (condition : Expr) (step : Assignment) : List TokenKind :=
  .bracket .paren .opening :: (init.kinds ++ .semicolon :: (condition.kinds ++ .semicolon ::
    step.kinds)) ++ [.bracket .paren .closing]

def Signal.keyword : Signal → Keyword
  | .break => .break
  | .continue => .continue

mutual

def Statement.layout : Statement → Layout
  | .assign a => .line a.kinds .nil
  | .println operands => .line (.keyword .system :: .name "println" :: operandKinds operands) .nil
  | .block body => .block [] body.layout .nil
  | .branch e body rest => .block (.keyword .if :: e.kinds) body.layout rest.layout
  | .while e body => .block (.keyword .while :: e.kinds) body.layout .nil
  | .for init e step body => .block (.keyword .for :: forKinds init e step) body.layout .nil
  | .signal s => .line [.keyword s.keyword] .nil

def Body.layout : Body → Layout
  | .nil => .nil
  | .cons first rest => first.layout ++ rest.layout

def Alternatives.layout : Alternatives → Layout
  | .none => .nil
  | .otherwise body => .block [.keyword .else] body.layout .nil
  | .elseIf e body rest =>
      .block (.keyword .else :: .keyword .if :: e.kinds) body.layout rest.layout

end

/-!
## Legal programs

Literals are those that can be written, names are no reserved words, and expressions follow their
grammar.
-/

def Value.Written : Value → Prop
  | .int n => 0 ≤ n.toInt
  | .float _ => False
  | .function _ => False
  | _ => True

instance : (v : Value) → Decidable v.Written
  | .int n => inferInstanceAs (Decidable (0 ≤ n.toInt))
  | .float _ => inferInstanceAs (Decidable False)
  | .function _ => inferInstanceAs (Decidable False)
  | .string _ => inferInstanceAs (Decidable True)
  | .bool _ => inferInstanceAs (Decidable True)
  | .null => inferInstanceAs (Decidable True)

def Expr.Written : Expr → Prop
  | .literal v => v.Written
  | .name s => Lexeme.isName s = true
  | .group e => e.Written
  | .before _ e => e.Written
  | .between _ l r => l.Written ∧ r.Written

instance Expr.decidableWritten : (e : Expr) → Decidable e.Written
  | .literal v => inferInstanceAs (Decidable v.Written)
  | .name s => inferInstanceAs (Decidable (Lexeme.isName s = true))
  | .group e => e.decidableWritten
  | .before _ e => e.decidableWritten
  | .between _ l r =>
      have := l.decidableWritten
      have := r.decidableWritten
      inferInstanceAs (Decidable (l.Written ∧ r.Written))

structure Expr.Legal (e : Expr) : Prop where
  wellFormed : e.WellFormed
  shallow : e.depth ≤ Expr.maxDepth
  written : e.Written

instance (e : Expr) : Decidable e.Legal :=
  decidable_of_iff (e.WellFormed ∧ e.depth ≤ Expr.maxDepth ∧ e.Written)
    ⟨fun h => ⟨h.1, h.2.1, h.2.2⟩, fun h => ⟨h.1, h.2, h.3⟩⟩

def Assignment.Formed : Assignment → Prop
  | .declare t _ _ => t ≠ .null ∧ t ≠ .function
  | .set _ _ => True
  | .change op _ _ => op.operation?.isSome = true

instance : (a : Assignment) → Decidable a.Formed
  | .declare t _ _ => inferInstanceAs (Decidable (t ≠ .null ∧ t ≠ .function))
  | .set _ _ => inferInstanceAs (Decidable True)
  | .change op _ _ => inferInstanceAs (Decidable (op.operation?.isSome = true))

structure Assignment.Legal (a : Assignment) : Prop where
  name : Lexeme.isName a.name = true
  value : a.value.Legal
  formed : a.Formed

instance (a : Assignment) : Decidable a.Legal :=
  decidable_of_iff (Lexeme.isName a.name = true ∧ a.value.Legal ∧ a.Formed)
    ⟨fun h => ⟨h.1, h.2.1, h.2.2⟩, fun h => ⟨h.1, h.2, h.3⟩⟩

theorem Assignment.Legal.op_cases {a : Assignment} (legal : a.Legal) :
    a.op = .assign ∨ a.op.operation?.isSome = true := by
  cases a with
  | change op x e => exact .inr legal.formed
  | _ => exact .inl rfl

theorem Assignment.Legal.type {a : Assignment} (legal : a.Legal) {t : ValueType}
    (declared : a.declared = some t) : t ≠ .null ∧ t ≠ .function := by
  cases a with
  | declare t' x e =>
      cases declared
      exact legal.formed
  | _ => cases declared

def Operand.Written : Operand → Prop
  | .literal v => v.Written
  | .name s => Lexeme.isName s = true

instance : (o : Operand) → Decidable o.Written
  | .literal v => inferInstanceAs (Decidable v.Written)
  | .name s => inferInstanceAs (Decidable (Lexeme.isName s = true))

mutual

def Statement.Legal : Statement → Prop
  | .assign a => a.Legal
  | .println operands => ∀ o ∈ operands, o.Written
  | .block body => body.Legal
  | .branch e body rest => e.Legal ∧ body.Legal ∧ rest.Legal
  | .while e body => e.Legal ∧ body.Legal
  | .for init e step body => init.Legal ∧ e.Legal ∧ step.Legal ∧ body.Legal
  | .signal _ => True

def Body.Legal : Body → Prop
  | .nil => True
  | .cons first rest => first.Legal ∧ rest.Legal

def Alternatives.Legal : Alternatives → Prop
  | .none => True
  | .otherwise body => body.Legal
  | .elseIf e body rest => e.Legal ∧ body.Legal ∧ rest.Legal

end

mutual

instance Statement.decidableLegal : (s : Statement) → Decidable s.Legal
  | .assign a => inferInstanceAs (Decidable a.Legal)
  | .println operands => inferInstanceAs (Decidable (∀ o ∈ operands, o.Written))
  | .block body => body.decidableLegal
  | .branch e body rest =>
      have := body.decidableLegal
      have := rest.decidableLegal
      inferInstanceAs (Decidable (e.Legal ∧ body.Legal ∧ rest.Legal))
  | .while e body =>
      have := body.decidableLegal
      inferInstanceAs (Decidable (e.Legal ∧ body.Legal))
  | .for init e step body =>
      have := body.decidableLegal
      inferInstanceAs (Decidable (init.Legal ∧ e.Legal ∧ step.Legal ∧ body.Legal))
  | .signal _ => inferInstanceAs (Decidable True)

instance Body.decidableLegal : (b : Body) → Decidable b.Legal
  | .nil => inferInstanceAs (Decidable True)
  | .cons first rest =>
      have := first.decidableLegal
      have := rest.decidableLegal
      inferInstanceAs (Decidable (first.Legal ∧ rest.Legal))

instance Alternatives.decidableLegal : (r : Alternatives) → Decidable r.Legal
  | .none => inferInstanceAs (Decidable True)
  | .otherwise body => body.decidableLegal
  | .elseIf e body rest =>
      have := body.decidableLegal
      have := rest.decidableLegal
      inferInstanceAs (Decidable (e.Legal ∧ body.Legal ∧ rest.Legal))

end

/-!
## Text
-/

def TokenKind.lexeme : TokenKind → Lexeme
  | .literal (.int n) => .integer n
  | .literal (.float x) => .float x
  | .literal (.string s) => .string s
  | .literal (.bool b) => .bool b
  | .literal .null => .null
  | .literal (.function s) => .name s
  | .template s => .template s
  | .name s => .name s
  | .type t => .type t
  | .operator .negate => .operator .sub
  | .operator op => .operator op
  | .bracket .scope .opening => .openBrace
  | .bracket .scope .closing => .closeBrace
  | .bracket _ .opening => .openParen
  | .bracket _ .closing => .closeParen
  | .keyword k => .keyword k
  | .signal s => .keyword s.keyword
  | .comma => .comma
  | .semicolon => .semicolon

def lineText : List TokenKind → List Char
  | [] => ['\n']
  | [k] => k.lexeme.spelling ++ ['\n']
  | k :: l :: ks => k.lexeme.spelling ++ ' ' :: lineText (l :: ks)

/-- The script of a structured program. -/
def Body.source (body : Body) : String :=
  String.ofList (body.layout.code.flatMap lineText)

end LineScript
