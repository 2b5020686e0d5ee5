import LineScript.Proofs.Choice
import LineScript.Proofs.Expression.Grammar

/-!
# Trees over lines

A tree whose nodes are cells of a line, so that the cells of a partly reduced expression can be read
as a tree.  `Tree.Ranked` relates the shape of a tree to the priorities of its cells: every operator
has the priority of its kind above a base, parentheses that have been reached raise the base of
what they enclose, and cells that never act stay below zero however many parentheses around them are
still to be reached.
-/

namespace LineScript

def TokenKind.operand : TokenKind → Expr
  | .name s => .name s
  | .literal v => .literal v
  | _ => .literal .null

def TokenKind.isExpression : TokenKind → Bool
  | .literal _ => true
  | .name _ => true
  | .operator _ => true
  | .bracket .paren _ => true
  | _ => false

theorem TokenKind.isExpression_of_isOperand {k : TokenKind} (operand : k.isOperand = true) :
    k.isExpression = true := by
  cases k with
  | literal _ => rfl
  | name _ => rfl
  | _ => cases operand

section
variable (k : TokenKind)

@[simp] theorem TokenKind.isPrimary_operand : k.operand.isPrimary = true := by cases k <;> rfl

@[simp] theorem TokenKind.isPower_operand : k.operand.isPower = false := by cases k <;> rfl

@[simp] theorem TokenKind.isNegatedPower_operand : k.operand.isNegatedPower = false := by
  cases k <;> rfl

@[simp] theorem TokenKind.startsPrefixed_operand : k.operand.startsPrefixed = false := by
  cases k <;> rfl

@[simp] theorem TokenKind.endsNegated_operand : k.operand.endsNegated = false := by cases k <;> rfl

@[simp] theorem TokenKind.clashes_operand : k.operand.clashes = false := by cases k <;> rfl

end

inductive Tree where
  | leaf (c : Cell)
  | group (opening : Cell) (inner : Tree) (closing : Cell)
  /-- An operator before its operand; `waits` says that it has been lowered below a power. -/
  | before (op : Operator) (waits : Bool) (c : Cell) (operand : Tree)
  | between (op : Operator) (left : Tree) (c : Cell) (right : Tree)

namespace Tree

def cells : Tree → List Cell
  | .leaf c => [c]
  | .group o t c => o :: t.cells ++ [c]
  | .before _ _ c t => c :: t.cells
  | .between _ l c r => l.cells ++ c :: r.cells

def expr : Tree → Expr
  | .leaf c => c.token.kind.operand
  | .group _ t _ => .group t.expr
  | .before op _ _ t => .before op t.expr
  | .between op l _ r => .between op l.expr r.expr

def isWaiting : Tree → Bool
  | .before _ waits _ _ => waits
  | _ => false

def value? (m : Machine) : Tree → Option Value
  | .leaf c => (m.valueOf c.token).toOption
  | .group _ t _ => t.value? m
  | .before op _ _ t => (t.value? m).bind fun v => (op.applyBefore v).toOption
  | .between op l _ r =>
      (l.value? m).bind fun a => (r.value? m).bind fun b => (op.applyBetween a b).toOption

/-- Decreases with every action: with the number of cells, with the parentheses not yet reached and
with the operators not yet lowered. -/
def weight : Tree → Nat
  | .leaf _ => 0
  | .group o t _ => t.weight + (if o.token.expanded then 1 else 2)
  | .before _ waits _ t => t.weight + (if waits then 1 else 2)
  | .between _ l _ r => l.weight + r.weight + 1

def boost (amount : Int) : Tree → Tree
  | .leaf c => .leaf (Line.boostCell amount c)
  | .group o t c => .group (Line.boostCell amount o) (t.boost amount) (Line.boostCell amount c)
  | .before op waits c t => .before op waits (Line.boostCell amount c) (t.boost amount)
  | .between op l c r => .between op (l.boost amount) (Line.boostCell amount c) (r.boost amount)

/-- The cell stays below zero after as many boosts as there is room for, and one more. -/
def Idle (room : Nat) (c : Cell) : Prop :=
  c.token.priority + Priority.boost * (room + 1) ≤ 0

/-- The priorities of the cells agree with the tree.  An operator waits only before a power that
starts with its base; where it waits in the right operand of a power, a power has to follow it, or
it would act before the power on its left. -/
def Ranked (base : Int) (room : Nat) (floor : Int) : Tree → Prop
  | .leaf c => c.token.kind.isOperand = true ∧ Idle room c
  | .group o t c =>
      o.token.kind = .bracket .paren .opening ∧ o.token.priority = base + Priority.bracket ∧
        c.token.kind = .bracket .paren .closing ∧ Idle room c ∧
        (o.token.expanded = true → t.Ranked (base + Priority.boost) room Priority.logical) ∧
        (o.token.expanded = false →
          room < Expr.maxDepth ∧ t.Ranked base (room + 1) Priority.logical)
  | .before op waits c t =>
      op.isUnary = true ∧ c.token.kind = .operator op ∧ t.Ranked base room Priority.power ∧
        (op = .not → t.expr.isPower = false) ∧
        if waits then
          op = .negate ∧ c.token.priority = base + Priority.power - 1 ∧
            t.expr.startsPrefixed = false
        else c.token.priority = base + Priority.unary
  | .between op l c r =>
      (op.isUnary = false ∧ op.isAssignment = false) ∧ c.token.kind = .operator op ∧
        c.token.priority = base + op.priority ∧ floor ≤ op.priority ∧
        l.Ranked base room op.priority ∧ r.Ranked base room (op.priority + 1) ∧
        (op = .pow → l.expr.endsNegated = false) ∧
        (op = .pow → r.isWaiting = true → r.expr.isNegatedPower = true)

/-!
## Boosts
-/

@[simp] theorem cells_boost (amount : Int) (t : Tree) :
    (t.boost amount).cells = t.cells.map (Line.boostCell amount) := by
  induction t with
  | leaf c => rfl
  | group o t c ih => simp [boost, cells, ih]
  | before op waits c t ih => simp [boost, cells, ih]
  | between op l c r ihl ihr => simp [boost, cells, ihl, ihr]

@[simp] theorem expr_boost (amount : Int) (t : Tree) : (t.boost amount).expr = t.expr := by
  induction t with
  | leaf c => rfl
  | group o t c ih => simp [boost, expr, ih]
  | before op waits c t ih => simp [boost, expr, ih]
  | between op l c r ihl ihr => simp [boost, expr, ihl, ihr]

@[simp] theorem isWaiting_boost (amount : Int) (t : Tree) :
    (t.boost amount).isWaiting = t.isWaiting := by
  cases t <;> rfl

@[simp] theorem weight_boost (amount : Int) (t : Tree) : (t.boost amount).weight = t.weight := by
  induction t with
  | leaf c => rfl
  | group o t c ih => simp [boost, weight, ih, Line.boostCell, Token.boost]
  | before op waits c t ih => simp [boost, weight, ih]
  | between op l c r ihl ihr => simp [boost, weight, ihl, ihr]

@[simp] theorem value?_boost (m : Machine) (amount : Int) (t : Tree) :
    (t.boost amount).value? m = t.value? m := by
  induction t with
  | leaf c => rfl
  | group o t c ih => simp [boost, value?, ih]
  | before op waits c t ih => simp [boost, value?, ih]
  | between op l c r ihl ihr => simp [boost, value?, ihl, ihr]

theorem idle_boost {room : Nat} {c : Cell} (idle : Idle (room + 1) c) :
    Idle room (Line.boostCell Priority.boost c) := by
  simp only [Idle, Line.boostCell, Token.boost, Priority.boost] at idle ⊢
  omega

/-- A boost moves a ranked tree to the next base and uses up room for one boost. -/
theorem ranked_boost {base : Int} {room : Nat} {floor : Int} {t : Tree}
    (ranked : t.Ranked base (room + 1) floor) :
    (t.boost Priority.boost).Ranked (base + Priority.boost) room floor := by
  induction t generalizing base room floor with
  | leaf c => exact ⟨ranked.1, idle_boost ranked.2⟩
  | group o t c ih =>
      obtain ⟨ho, hp, hc, idle, reached, unreached⟩ := ranked
      refine ⟨ho, ?_, hc, idle_boost idle, fun h => ih (reached h), fun h => ?_⟩
      · simp only [Line.boostCell, Token.boost, hp]
        omega
      · obtain ⟨small, inner⟩ := unreached h
        exact ⟨by omega, ih inner⟩
  | before op waits c t ih =>
      obtain ⟨hop, hc, operand, power, rank⟩ := ranked
      refine ⟨hop, hc, ih operand, by simpa using power, ?_⟩
      simp only [Line.boostCell, Token.boost, expr_boost]
      cases waits with
      | true =>
          simp only [if_true] at rank ⊢
          exact ⟨rank.1, by omega, rank.2.2⟩
      | false =>
          simp only [Bool.false_eq_true, if_false] at rank ⊢
          omega
  | between op l c r ihl ihr =>
      obtain ⟨hop, hc, hp, hfloor, left, right, ends, waits⟩ := ranked
      refine ⟨hop, hc, ?_, hfloor, ihl left, ihr right, by simpa using ends, by simpa using waits⟩
      simp only [Line.boostCell, Token.boost, hp]
      omega

/-!
## Brackets
-/

theorem splitClose?_skip {b : Bracket} {n : Nat} {c : Cell} {cs : List Cell}
    (plain : ∀ s, c.token.kind ≠ .bracket b s) :
    Line.splitClose? b n (c :: cs) =
      (Line.splitClose? b n cs).map fun (inner, close, rest) => (c :: inner, close, rest) := by
  simp [Line.splitClose?, plain]

theorem splitClose?_opening {b : Bracket} {n : Nat} {c : Cell} {cs : List Cell}
    (opens : c.token.kind = .bracket b .opening) :
    Line.splitClose? b n (c :: cs) =
      (Line.splitClose? b (n + 1) cs).map fun (inner, close, rest) =>
        (c :: inner, close, rest) := by
  simp [Line.splitClose?, opens]

theorem splitClose?_closing {b : Bracket} {n : Nat} {c : Cell} {cs : List Cell}
    (closes : c.token.kind = .bracket b .closing) :
    Line.splitClose? b (n + 1) (c :: cs) =
      (Line.splitClose? b n cs).map fun (inner, close, rest) => (c :: inner, close, rest) := by
  simp [Line.splitClose?, closes]

theorem splitClose?_here {b : Bracket} {c : Cell} {cs : List Cell}
    (closes : c.token.kind = .bracket b .closing) :
    Line.splitClose? b 0 (c :: cs) = some ([], c, cs) := by
  simp [Line.splitClose?, closes]

theorem splitClose?_plain {b : Bracket} {inner : List Cell} {close : Cell} (rest : List Cell)
    (plain : ∀ c ∈ inner, ∀ side, c.token.kind ≠ .bracket b side)
    (closes : close.token.kind = .bracket b .closing) :
    Line.splitClose? b 0 (inner ++ close :: rest) = some (inner, close, rest) := by
  induction inner with
  | nil => exact splitClose?_here closes
  | cons c inner ih =>
      rw [List.cons_append, splitClose?_skip (plain c (by simp)),
        ih fun d hd => plain d (by simp [hd])]
      rfl

/-- A search for a closing parenthesis passes over a whole tree. -/
theorem splitClose?_cells {base : Int} {room : Nat} {floor : Int} {t : Tree}
    (ranked : t.Ranked base room floor) (n : Nat) (rest : List Cell) :
    Line.splitClose? .paren n (t.cells ++ rest) =
      (Line.splitClose? .paren n rest).map fun (inner, close, after) =>
        (t.cells ++ inner, close, after) := by
  induction t generalizing base room floor n rest with
  | leaf c =>
      have plain : ∀ s, c.token.kind ≠ .bracket .paren s := by
        intro s h
        simp [Ranked, h, TokenKind.isOperand] at ranked
      rw [cells, List.singleton_append, splitClose?_skip plain]
      rfl
  | group o t c ih =>
      obtain ⟨ho, -, hc, -, reached, unreached⟩ := ranked
      have enclosed : ∀ n rest, Line.splitClose? .paren n (t.cells ++ rest) =
          (Line.splitClose? .paren n rest).map fun (inner, close, after) =>
            (t.cells ++ inner, close, after) := by
        cases expanded : o.token.expanded with
        | true => exact ih (reached expanded)
        | false => exact ih (unreached expanded).2
      rw [cells, List.cons_append, List.cons_append, List.append_assoc, splitClose?_opening ho,
        enclosed, List.singleton_append, splitClose?_closing hc]
      cases Line.splitClose? .paren n rest <;> simp
  | before op waits c t ih =>
      obtain ⟨-, hc, operand, -⟩ := ranked
      rw [cells, List.cons_append, splitClose?_skip (by simp [hc]), ih operand]
      cases Line.splitClose? .paren n rest <;> simp
  | between op l c r ihl ihr =>
      obtain ⟨-, hc, -, -, left, right, -⟩ := ranked
      rw [cells, List.append_assoc, ihl left, List.cons_append, splitClose?_skip (by simp [hc]),
        ihr right]
      cases Line.splitClose? .paren n rest <;> simp

/-!
## Cells that can act
-/

theorem cells_ne_nil (t : Tree) : t.cells ≠ [] := by
  cases t <;> simp [cells]

/-- A tree is made of operands, operators and parentheses. -/
theorem isExpression {base : Int} {room : Nat} {floor : Int} {t : Tree}
    (ranked : t.Ranked base room floor) : ∀ c ∈ t.cells, c.token.kind.isExpression = true := by
  induction t generalizing base room floor with
  | leaf c =>
      intro d hd
      obtain rfl : d = c := by simpa [cells] using hd
      exact TokenKind.isExpression_of_isOperand ranked.1
  | group o t c ih =>
      obtain ⟨ho, -, hc, -, reached, unreached⟩ := ranked
      have inner : ∀ d ∈ t.cells, d.token.kind.isExpression = true := by
        cases expanded : o.token.expanded with
        | true => exact ih (reached expanded)
        | false => exact ih (unreached expanded).2
      intro d hd
      simp only [cells, List.cons_append, List.mem_cons, List.mem_append, List.not_mem_nil,
        or_false] at hd
      rcases hd with rfl | hd | rfl
      · simp [ho, TokenKind.isExpression]
      · exact inner d hd
      · simp [hc, TokenKind.isExpression]
  | before op waits c t ih =>
      obtain ⟨-, hc, operand, -⟩ := ranked
      intro d hd
      rcases List.mem_cons.1 hd with rfl | hd
      · simp [hc, TokenKind.isExpression]
      · exact ih operand d hd
  | between op l c r ihl ihr =>
      obtain ⟨-, hc, -, -, left, right, -⟩ := ranked
      intro d hd
      rcases List.mem_append.1 hd with hd | hd
      · exact ihl left d hd
      · rcases List.mem_cons.1 hd with rfl | hd
        · simp [hc, TokenKind.isExpression]
        · exact ihr right d hd

theorem noBrace {base : Int} {room : Nat} {floor : Int} {t : Tree}
    (ranked : t.Ranked base room floor) : ∀ c ∈ t.cells, c.token.kind.isScopeBracket = false := by
  intro c hc
  have plain := isExpression ranked c hc
  cases kind : c.token.kind with
  | bracket b side => cases b <;> simp_all [TokenKind.isExpression, TokenKind.isScopeBracket]
  | _ => rfl

/-- A tree that is more than a leaf has a cell of a priority from the floor on, unless it is an
operator that waits below the floor. -/
theorem exists_active {base : Int} {room : Nat} {floor : Int} {t : Tree}
    (ranked : t.Ranked base room floor) (low : floor ≤ Priority.unary)
    (above : t.isWaiting = true → floor < Priority.power) (compound : ∀ c, t ≠ .leaf c) :
    ∃ c ∈ t.cells, base + floor ≤ c.token.priority := by
  cases t with
  | leaf c => exact absurd rfl (compound c)
  | group o t c =>
      refine ⟨o, by simp [cells], ?_⟩
      rw [ranked.2.1]
      simp only [Priority.bracket, Priority.unary] at low ⊢
      omega
  | before op waits c t =>
      refine ⟨c, by simp [cells], ?_⟩
      obtain ⟨-, -, -, -, rank⟩ := ranked
      cases waits with
      | true =>
          have := above rfl
          simp only [if_true] at rank
          omega
      | false =>
          simp only [Bool.false_eq_true, if_false] at rank
          omega
  | between op l c r =>
      refine ⟨c, by simp [cells], ?_⟩
      rw [ranked.2.2.1]
      have := ranked.2.2.2.1
      omega

theorem exists_leaf {base : Int} {room : Nat} {floor : Int} {t : Tree}
    (ranked : t.Ranked base room floor) (low : floor ≤ Priority.unary)
    (above : t.isWaiting = true → floor < Priority.power)
    (idle : ∀ c ∈ t.cells, c.token.priority < base + floor) : ∃ c, t = .leaf c := by
  by_cases compound : ∀ c, t ≠ .leaf c
  · obtain ⟨c, hc, high⟩ := exists_active ranked low above compound
    have := idle c hc
    omega
  · cases t with
    | leaf c => exact ⟨c, rfl⟩
    | _ => exact absurd (by simp) compound

theorem eq_pow_of_priority {op : Operator} (binary : op.isUnary = false)
    (high : Priority.power ≤ op.priority) : op = .pow := by
  cases op <;> simp_all [Operator.isUnary, Operator.priority, Priority.power,
    Priority.multiplicative, Priority.additive, Priority.comparison, Priority.logical,
    Priority.assignment]

theorem cells_of_startsPrefixed {base : Int} {room : Nat} {floor : Int} {t : Tree}
    (ranked : t.Ranked base room floor) (first : t.expr.startsPrefixed = true) :
    ∃ c rest, t.cells = c :: rest ∧ c.token.kind.isOperand = false := by
  induction t generalizing floor with
  | leaf c => simp [expr] at first
  | group o t c => simp [expr, Expr.startsPrefixed] at first
  | before op waits c t => exact ⟨c, t.cells, rfl, by simp [ranked.2.1, TokenKind.isOperand]⟩
  | between op l c r ihl _ =>
      obtain ⟨d, rest, hcells, notOperand⟩ := ihl ranked.2.2.2.2.1 first
      exact ⟨d, rest ++ c :: r.cells, by simp [cells, hcells], notOperand⟩

theorem cells_of_isPower {base : Int} {room : Nat} {floor : Int} {t : Tree}
    (ranked : t.Ranked base room floor) (power : t.expr.isPower = true)
    (first : t.expr.startsPrefixed = false) :
    (∃ o ∈ t.cells, o.token.priority = base + Priority.bracket) ∨
      ∃ c p rest, t.cells = c :: p :: rest ∧ c.token.kind.isOperand = true ∧
        p.token.kind = .operator .pow ∧ p.token.priority = base + Priority.power := by
  induction t generalizing floor with
  | between op l c r ihl _ =>
      obtain ⟨-, hc, hp, -, left, -, -⟩ := ranked
      obtain rfl : op = .pow := by simpa [expr, Expr.isPower] using power
      cases l with
      | leaf x => exact .inr ⟨x, c, r.cells, by simp [cells], left.1, hc, hp⟩
      | group o t x => exact .inl ⟨o, by simp [cells], left.2.1⟩
      | before op waits d t => simp [expr, Expr.startsPrefixed] at first
      | between op l' d r' =>
          have same := eq_pow_of_priority left.1.1 left.2.2.2.1
          rcases ihl left (by simp [expr, Expr.isPower, same]) first with
            ⟨o, ho, hop⟩ | ⟨x, p, rest, hcells, hx, hp', hpp⟩
          · exact .inl ⟨o, List.mem_append_left _ ho, hop⟩
          · exact .inr ⟨x, p, rest ++ c :: r.cells, by rw [cells, hcells]; rfl, hx, hp', hpp⟩
  | leaf c => simp [expr] at power
  | group o t c => simp [expr, Expr.isPower] at power
  | before op waits c t => simp [expr, Expr.isPower] at power

end Tree

end LineScript
