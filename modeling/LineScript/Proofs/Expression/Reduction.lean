import LineScript.Proofs.Expression.Action
import LineScript.Proofs.Expression.Tree

/-!
# Reducing an expression in a line

The chosen cell of a line that holds a ranked tree is a node of the tree whose operands are leaves:
a left operand that is more than a leaf has an operator of at least the same priority further left,
and a right operand or the content of reached parentheses has one of a higher priority.  So an
action replaces the tree by a smaller one of the same value, or fails where evaluation fails.  The
exceptions are prefix operators that meet: an action never separates them, and one that finds a
prefix operator in the place of an operand cannot be reduced (`Tree.act_reduct`).  A run reduces the
tree to a leaf, unless it has no value or prefix operators meet in it (`Machine.Holds.after`).
-/

namespace LineScript

/-!
## Shapes
-/

namespace Expr

/-- What becomes of the shape of an expression when a cell of the priority `p` acts in it.  Prefix
operators that meet stay together: one is separated from what follows it only by an action of its
own or one of lower priority. -/
structure Keeps (base p : Int) (e e' : Expr) : Prop where
  power : e.isPower = false → e'.isPower = false
  negated : e.isNegatedPower = false → e'.isNegatedPower = false
  starts : e.startsPrefixed = false → e'.startsPrefixed = false
  ends : e.endsNegated = false → e'.endsNegated = false
  clashes : e'.clashes = e.clashes
  keepsPower : base + Priority.power < p → e.isPower = true → e'.isPower = true
  keepsNegated : base + Priority.power < p → e.isNegatedPower = true → e'.isNegatedPower = true
  keepsStart : base + Priority.unary < p → e.startsPrefixed = true → e'.startsPrefixed = true

section
variable {base p : Int} {op : Operator} {e e' : Expr}

theorem Keeps.refl (base p : Int) (e : Expr) : e.Keeps base p e :=
  ⟨id, id, id, id, rfl, fun _ => id, fun _ => id, fun _ => id⟩

theorem keeps_operand {k : TokenKind} (calm : e.clashes = false)
    (negated : e.isNegatedPower = false) (power : e.isPower = true → p ≤ base + Priority.power)
    (start : e.startsPrefixed = true → p ≤ base + Priority.unary) : e.Keeps base p k.operand where
  power := by simp
  negated := by simp
  starts := by simp
  ends := by simp
  clashes := by simp [calm]
  keepsPower := fun high h => absurd (power h) (by omega)
  keepsNegated := by simp [negated]
  keepsStart := fun high h => absurd (start h) (by omega)

theorem Keeps.group {base' : Int} (keeps : e.Keeps base' p e') :
    (Expr.group e).Keeps base p (.group e') where
  power := id
  negated := id
  starts := id
  ends := id
  clashes := keeps.clashes
  keepsPower := fun _ => id
  keepsNegated := fun _ => id
  keepsStart := fun _ => id

theorem Keeps.before (keeps : e.Keeps base p e')
    (start : e.startsPrefixed = true → base + Priority.unary < p) :
    (Expr.before op e).Keeps base p (.before op e') where
  power := id
  negated := by
    simp only [isNegatedPower, Bool.and_eq_false_iff]
    exact Or.imp_right keeps.power
  starts := id
  ends := by
    simp only [endsNegated, Bool.or_eq_false_iff]
    exact And.imp_right keeps.ends
  clashes := by
    have first : e'.startsPrefixed = e.startsPrefixed := by
      cases h : e.startsPrefixed with
      | true => exact keeps.keepsStart (start h) h
      | false => exact keeps.starts h
    simp only [Expr.clashes, first, keeps.clashes]
  keepsPower := fun _ => id
  keepsNegated := by
    simp only [isNegatedPower, Bool.and_eq_true]
    exact fun high => And.imp_right (keeps.keepsPower high)
  keepsStart := fun _ => id

theorem Keeps.left (keeps : e.Keeps base p e') (r : Expr) :
    (Expr.between op e r).Keeps base p (.between op e' r) where
  power := id
  negated := id
  starts := keeps.starts
  ends := id
  clashes := by simp only [Expr.clashes, keeps.clashes]
  keepsPower := fun _ => id
  keepsNegated := fun _ => id
  keepsStart := keeps.keepsStart

theorem Keeps.right (keeps : e.Keeps base p e') (l : Expr)
    (high : op = .pow → base + Priority.power < p) :
    (Expr.between op l e).Keeps base p (.between op l e') where
  power := id
  negated := id
  starts := id
  ends := keeps.ends
  clashes := by
    have negated : op = .pow → e'.isNegatedPower = e.isNegatedPower := by
      intro power
      cases h : e.isNegatedPower with
      | true => exact keeps.keepsNegated (high power) h
      | false => exact keeps.negated h
    by_cases power : op = .pow <;> simp [Expr.clashes, keeps.clashes, power, negated]
  keepsPower := fun _ => id
  keepsNegated := fun _ => id
  keepsStart := fun _ => id

end

end Expr

namespace Tree

structure Reduct (m : Machine) (base : Int) (room : Nat) (floor p : Int) (t t' : Tree) : Prop where
  ranked : t'.Ranked base room floor
  value : t'.value? m = t.value? m
  weight : t'.weight < t.weight
  refs : (t'.cells.map Cell.ref).Sublist (t.cells.map Cell.ref)
  keeps : t.expr.Keeps base p t'.expr
  waits : t'.isWaiting = true → t.isWaiting = true ∨ t'.expr.isNegatedPower = true
  /-- Only an operation that has a result leaves an operand. -/
  computes : t.expr.isPrimary = false → t'.expr.isPrimary = true → t.value? m ≠ none

/-- What an error tells of a tree: it has no value, or prefix operators meet in it. -/
def Blames (m : Machine) (t : Tree) (e : RuntimeError) : Prop :=
  t.value? m = none ∨ t.expr.clashes = true ∧ ∃ token, e.cause = .cannotReduce token

theorem Blames.value {m : Machine} {t : Tree} {e : RuntimeError} (blames : t.Blames m e)
    (calm : t.expr.clashes = false) : t.value? m = none := by
  rcases blames with none | ⟨clashes, -⟩
  · exact none
  · simp [calm] at clashes

@[simp] theorem value?_onLine (m : Machine) (cells : List Cell) (ids : Nat) (t : Tree) :
    t.value? (m.onLine cells ids) = t.value? m := by
  induction t with
  | leaf c => rfl
  | group o t c ih => simp [value?, ih]
  | before op waits c t ih => simp [value?, ih]
  | between op l c r ihl ihr => simp [value?, ihl, ihr]

/-- An action on the cell in focus reduces the tree that stands between two parts of the line, or
fails for a reason that lies in the tree. -/
def Advances (m : Machine) (f : Focus) (pre post : List Cell) (base : Int) (room : Nat)
    (floor : Int) (t : Tree) : Prop :=
  (∃ t' ids, (Action.act f).outcome m = .ok ((), m.onLine (pre ++ t'.cells ++ post) ids) ∧
      Reduct m base room floor f.cell.token.priority t t') ∨
    ∃ e, (Action.act f).outcome m = .error (.error e) ∧ t.Blames m e

structure Inside (f : Focus) (pre u : List Cell) (t : Tree) (v post : List Cell) : Prop where
  cells : t.cells = u ++ f.cell :: v
  before : f.before = u.reverse ++ pre.reverse
  after : f.after = v ++ post
  left : ∀ c ∈ u, c.token.priority < f.cell.token.priority
  right : ∀ c ∈ v, c.token.priority ≤ f.cell.token.priority

section
variable {m : Machine} {f : Focus} {pre post u v : List Cell} {base : Int} {room : Nat}
  {floor : Int}

/-!
## Trees in which the root acts
-/

theorem advances_of_value {t : Tree} {c : Cell} {v : Value}
    (acts : (Action.act f).outcome m =
      .ok ((), m.onLine (pre ++ { c with token := .literal v m.nextId c.token.line } :: post) 1))
    (value : t.value? m = some v) (member : c ∈ t.cells) (compound : ∀ c, t ≠ .leaf c)
    (small : room ≤ Expr.maxDepth)
    (keeps : t.expr.Keeps base f.cell.token.priority (.literal v)) :
    Advances m f pre post base room floor t := by
  refine .inl ⟨.leaf { c with token := .literal v m.nextId c.token.line }, 1, ?_, ?_⟩
  · rw [acts]
    simp [Tree.cells]
  · refine
      { ranked := ⟨rfl, ?_⟩
        value := ?_
        weight := ?_
        refs := ?_
        keeps := keeps
        waits := by simp [isWaiting]
        computes := by simp [value] }
    · simp only [Idle, Token.literal, Token.new, TokenKind.basePriority, Priority.inert,
        Priority.boost, Expr.maxDepth] at small ⊢
      omega
    · rw [value]
      rfl
    · cases t with
      | leaf c => exact absurd rfl (compound c)
      | group o t c => simp only [Tree.weight]; split <;> omega
      | before op waits c t => simp only [Tree.weight]; split <;> omega
      | between op l c r => simp only [Tree.weight]; omega
    · simpa [Tree.cells] using List.mem_map_of_mem (f := Cell.ref) member

section

variable (distinct : m.work.line.Distinct) (whole : f.cells = m.work.line.cells)

include distinct whole

/-- Beside a chosen operator neither operand holds an operator, but for a `-` that waits for a power
in the right operand of another one. -/
theorem advances_between {op : Operator} {l r : Tree} {c : Cell}
    (ranked : (Tree.between op l c r).Ranked base room floor) (small : room ≤ Expr.maxDepth)
    (inside : Inside f pre l.cells (.between op l c r) r.cells post) (here : f.cell = c) :
    Advances m f pre post base room floor (.between op l c r) := by
  obtain ⟨binary, kind, rank, -, left, right, ends, waits⟩ := ranked
  have bounded : op.priority ≤ Priority.power := by
    cases op <;> simp_all [Operator.isUnary, Operator.priority] <;> decide
  have below : op ≠ .pow → op.priority + 1 < Priority.power := by
    intro other
    cases op <;> simp_all [Operator.isUnary, Operator.priority] <;> decide
  obtain ⟨x, rfl⟩ : ∃ x, l = .leaf x := by
    refine exists_leaf left (Int.le_trans bounded (by decide)) ?_ fun d hd => ?_
    · intro waiting
      by_cases power : op = .pow
      · have negated : l.expr.endsNegated = true := by
          cases l with
          | before op' waits' d t =>
              obtain rfl : waits' = true := waiting
              obtain ⟨-, -, -, -, rfl, -⟩ := left
              simp [expr, Expr.endsNegated]
          | _ => simp [isWaiting] at waiting
        simp [ends power] at negated
      · have := below power
        omega
    · have := inside.left d hd
      rw [here, rank] at this
      exact this
  subst here
  by_cases clash : op = .pow ∧ r.isWaiting = true
  · obtain ⟨rfl, waiting⟩ := clash
    have negated := waits rfl waiting
    cases r with
    | before op' waits' d t =>
        refine .inr ⟨_, Action.outcome_act_operator_stray kind binary.2
          (fun _ => ⟨x, pre.reverse, by simpa [Tree.cells] using inside.before, left.1⟩)
          (by simpa [Tree.cells] using inside.after)
          (by simp [right.2.1, TokenKind.isOperand]), .inr ⟨?_, _, rfl⟩⟩
        simp [expr, Expr.clashes] at negated ⊢
        simp [negated]
    | _ => simp [isWaiting] at waiting
  · obtain ⟨y, rfl⟩ : ∃ y, r = .leaf y := by
      have low : op.priority + 1 ≤ Priority.unary := by
        simp only [Priority.unary, Priority.power] at bounded ⊢
        omega
      refine exists_leaf right low ?_ fun d hd => ?_
      · intro waiting
        exact below fun power => clash ⟨power, waiting⟩
      · have := inside.right d hd
        rw [rank] at this
        omega
    have acts := Action.outcome_act_between distinct whole kind binary
      (by simpa [Tree.cells] using inside.before) (by simpa [Tree.cells] using inside.after)
      left.1 right.1
    cases hx : m.valueOf x.token with
    | error stop =>
        obtain ⟨e, rfl⟩ := Machine.valueOf_error hx
        exact .inr ⟨e, by rw [acts, hx]; rfl, .inl (by simp [value?, hx, Except.toOption])⟩
    | ok a =>
        cases hy : m.valueOf y.token with
        | error stop =>
            obtain ⟨e, rfl⟩ := Machine.valueOf_error hy
            exact .inr ⟨e, by rw [acts, hx, hy]; rfl,
              .inl (by simp [value?, hx, hy, Except.toOption])⟩
        | ok b =>
            cases result : op.applyBetween a b with
            | error cause =>
                exact .inr ⟨_, by rw [acts, hx, hy]; simp [result]; rfl,
                  .inl (by simp [value?, hx, hy, result, Except.toOption])⟩
            | ok v =>
                refine advances_of_value (c := f.cell) (v := v) ?_ ?_ ?_ (by simp) small ?_
                · rw [acts, hx, hy]
                  simp [result]
                · simp [value?, hx, hy, result, Except.toOption]
                · simp [Tree.cells]
                · refine Expr.keeps_operand (k := .literal v) ?_ rfl (fun _ => ?_) ?_
                  · simp [expr, Expr.clashes]
                  · rw [rank]
                    exact Int.add_le_add_left bounded base
                  · simp [expr, Expr.startsPrefixed]

/-- The operand of a chosen operator that stands before it, if the operator does not wait. -/
private theorem advances_before_leaf {op : Operator} {waits : Bool} {c x : Cell}
    (unary : op.isUnary = true) (kind : c.token.kind = .operator op)
    (rank : c.token.priority ≤ base + Priority.unary)
    (operand : x.token.kind.isOperand = true) (small : room ≤ Expr.maxDepth)
    (inside : Inside f pre [] (.before op waits c (.leaf x)) [x] post) (here : f.cell = c)
    (follow : op = .negate → ∀ d, post.head? = some d → d.token.kind ≠ .operator .pow) :
    Advances m f pre post base room floor (.before op waits c (.leaf x)) := by
  subst here
  have free : Action.waitsBelow? f op = none := by
    unfold Action.waitsBelow? Action.powerAfter?
    rw [inside.after]
    cases post with
    | nil => simp
    | cons d post =>
        by_cases negation : op = .negate
        · have := follow negation d rfl
          simp [this]
        · simp [negation]
  have acts := Action.outcome_act_before distinct whole kind unary
    (by simpa using inside.after) operand free
  have beforeEq : f.before.reverse = pre := by simp [inside.before]
  rw [beforeEq] at acts
  cases hx : m.valueOf x.token with
  | error stop =>
      obtain ⟨e, rfl⟩ := Machine.valueOf_error hx
      exact .inr ⟨e, by rw [acts, hx]; rfl, .inl (by simp [value?, hx, Except.toOption])⟩
  | ok a =>
      cases result : op.applyBefore a with
      | error cause =>
          exact .inr ⟨_, by rw [acts, hx]; simp [result]; rfl,
            .inl (by simp [value?, hx, result, Except.toOption])⟩
      | ok v =>
          refine advances_of_value (c := f.cell) (v := v) ?_ ?_ ?_ (by simp) small ?_
          · rw [acts, hx]
            simp [result]
          · simp [value?, hx, result, Except.toOption]
          · simp [Tree.cells]
          · refine Expr.keeps_operand (k := .literal v) ?_ ?_ (by simp [expr, Expr.isPower])
              fun _ => rank
            · simp [expr, Expr.clashes]
            · simp [expr, Expr.isNegatedPower]

/-- A `-` before a power that starts with its base is lowered below it. -/
private theorem advances_waits {c : Cell} {t : Tree}
    (ranked : (Tree.before .negate false c t).Ranked base room floor)
    (inside : Inside f pre [] (.before .negate false c t) t.cells post) (here : f.cell = c)
    (power : t.expr.isPower = true) (first : t.expr.startsPrefixed = false)
    (noParen : ∀ o ∈ t.cells, o.token.priority ≠ base + Priority.bracket) :
    Advances m f pre post base room floor (.before .negate false c t) := by
  obtain ⟨unary, kind, operand, notPower, rank⟩ := ranked
  simp only [Bool.false_eq_true, if_false] at rank
  rcases cells_of_isPower operand power first with ⟨o, ho, hop⟩ | ⟨x, p, rest, hcells, hx, hp, hpp⟩
  · exact absurd hop (noParen o ho)
  · subst here
    have acts := Action.outcome_act_waits distinct whole kind
      (by rw [inside.after, hcells]; rfl) hx hp
      (by rw [hpp, rank]; simp only [Priority.power, Priority.unary]; omega)
    refine .inl ⟨.before .negate true
      { f.cell with token := { f.cell.token with priority := p.token.priority - 1 } } t, 0, ?_, ?_⟩
    · rw [acts, inside.before]
      simp [Tree.cells, hcells]
    · refine
        { ranked := ⟨unary, kind, operand, notPower, ?_⟩
          value := rfl
          weight := by simp [Tree.weight]
          refs := by simp [Tree.cells]
          keeps := Expr.Keeps.refl _ _ _
          waits := fun _ => .inr (by simp [expr, Expr.isNegatedPower, power])
          computes := by simp [expr, Expr.isPrimary] }
      simp only [if_true]
      exact ⟨trivial, by simp only [hpp], first⟩

/-- A chosen operator before its operand acts on a leaf, waits below the first power of the operand,
or meets another prefix operator. -/
theorem advances_before {op : Operator} {waits : Bool} {c : Cell} {t : Tree}
    (ranked : (Tree.before op waits c t).Ranked base room floor) (small : room ≤ Expr.maxDepth)
    (inside : Inside f pre [] (.before op waits c t) t.cells post) (here : f.cell = c)
    (follow : op = .negate → ∀ d, post.head? = some d → d.token.kind ≠ .operator .pow) :
    Advances m f pre post base room floor (.before op waits c t) := by
  have ⟨unary, kind, operand, power, rank⟩ := ranked
  have leafCase : c.token.priority ≤ base + Priority.unary → ∀ x, t = .leaf x →
      Advances m f pre post base room floor (.before op waits c t) := by
    rintro bounded x rfl
    exact advances_before_leaf distinct whole unary kind bounded operand.1 small inside here follow
  cases waits with
  | true =>
      simp only [if_true] at rank
      obtain ⟨-, rank, first⟩ := rank
      obtain ⟨x, hx⟩ : ∃ x, t = .leaf x := by
        refine exists_leaf operand (by decide) ?_ fun d hd => ?_
        · intro waiting
          cases t with
          | before _ _ _ _ => simp [expr, Expr.startsPrefixed] at first
          | _ => simp [isWaiting] at waiting
        · have := inside.right d hd
          rw [here] at this
          omega
      refine leafCase ?_ x hx
      simp only [rank, Priority.power, Priority.unary]
      omega
  | false =>
      simp only [Bool.false_eq_true, if_false] at rank
      have noParen : ∀ o ∈ t.cells, o.token.priority ≠ base + Priority.bracket := by
        intro o ho equal
        have := inside.right o ho
        rw [here, rank, equal] at this
        simp only [Priority.bracket, Priority.unary] at this
        omega
      cases first : t.expr.startsPrefixed with
      | true =>
          subst here
          obtain ⟨d, rest, hcells, other⟩ := cells_of_startsPrefixed operand first
          refine .inr ⟨_, Action.outcome_act_operator_stray kind
            (Action.isAssignment_of_isUnary unary) (by simp [unary])
            (by rw [inside.after, hcells]; rfl) other, .inr ⟨?_, _, rfl⟩⟩
          simp [expr, Expr.clashes, first]
      | false =>
          cases t with
          | leaf x => exact leafCase (by omega) x rfl
          | group o t x => exact absurd operand.2.1 (noParen o (by simp [Tree.cells]))
          | before _ _ _ _ => simp [expr, Expr.startsPrefixed] at first
          | between op' l d r =>
              have isPower : (Tree.between op' l d r).expr.isPower = true := by
                have := eq_pow_of_priority operand.1.1 operand.2.2.2.1
                simp [expr, Expr.isPower, this]
              obtain rfl : op = .negate := by
                cases op with
                | negate => rfl
                | not => simp [power] at isPower
                | _ => simp [Operator.isUnary] at unary
              exact advances_waits distinct whole ranked inside here isPower first noParen

/-- Chosen parentheses boost their content or, if it is a leaf, are dropped. -/
theorem advances_group {o c : Cell} {t : Tree}
    (ranked : (Tree.group o t c).Ranked base room floor)
    (inside : Inside f pre [] (.group o t c) (t.cells ++ [c]) post) (here : f.cell = o) :
    Advances m f pre post base room floor (.group o t c) := by
  obtain ⟨ho, rank, hc, idle, reached, unreached⟩ := ranked
  subst here
  have split : Line.splitClose? .paren 0 f.after = some (t.cells, c, post) := by
    have passes : ∀ base room floor, t.Ranked base room floor →
        Line.splitClose? .paren 0 f.after = some (t.cells, c, post) := by
      intro base room floor inner
      rw [inside.after, List.append_assoc, splitClose?_cells inner, List.singleton_append,
        splitClose?_here hc]
      simp
    cases expanded : f.cell.token.expanded with
    | true => exact passes _ _ _ (reached expanded)
    | false => exact passes _ _ _ (unreached expanded).2
  have beforeEq : f.before.reverse = pre := by simp [inside.before]
  cases expanded : f.cell.token.expanded with
  | false =>
      have acts := Action.outcome_act_opening distinct whole ho (by decide) expanded split
      refine .inl ⟨.group { f.cell with token := { f.cell.token with expanded := true } }
        (t.boost Priority.boost) c, 0, ?_, ?_⟩
      · rw [acts, beforeEq]
        simp [Tree.cells]
      · refine
          { ranked := ⟨ho, rank, hc, idle, fun _ => ranked_boost (unreached expanded).2, by simp⟩
            value := by simp [value?]
            weight := by simp [Tree.weight, expanded]
            refs := ?_
            keeps := by simpa only [expr, expr_boost] using Expr.Keeps.refl _ _ _
            waits := by simp [isWaiting]
            computes := by simp [expr, Expr.isPrimary] }
        have same : Cell.ref ∘ Line.boostCell Priority.boost = Cell.ref := rfl
        simp [Tree.cells, same]
  | true =>
      have inner := reached expanded
      obtain ⟨x, rfl⟩ : ∃ x, t = .leaf x := by
        refine exists_leaf inner (by decide) (fun _ => by decide) fun d hd => ?_
        have := inside.right d (by simp [hd])
        rw [rank] at this
        simp only [Priority.boost, Priority.bracket, Priority.logical] at this ⊢
        omega
      have acts := Action.outcome_act_group distinct whole ho expanded split inner.1
      refine .inl ⟨.leaf x, 0, ?_, ?_⟩
      · rw [acts, beforeEq]
        simp [Tree.cells]
      · refine
          { ranked := inner
            value := rfl
            weight := by simp [Tree.weight, expanded]
            refs := by simp [Tree.cells]
            keeps := Expr.keeps_operand (by simp [expr, Expr.clashes]) rfl
              (by simp [expr, Expr.isPower]) (by simp [expr, Expr.startsPrefixed])
            waits := by simp [isWaiting]
            computes := by simp [expr, Expr.isPrimary] }

end

/-!
## The chosen node of a tree
-/

theorem Inside.part {t s : Tree} {a b w x : List Cell} (inside : Inside f pre u t v post)
    (hu : u = a ++ w) (hv : v = x ++ b) (cells : s.cells = w ++ f.cell :: x) :
    Inside f (pre ++ a) w s x (b ++ post) where
  cells := cells
  before := by simp [inside.before, hu]
  after := by simp [inside.after, hv]
  left := fun c hc => inside.left c (by simp [hu, hc])
  right := fun c hc => inside.right c (by simp [hv, hc])

theorem Advances.group {o c : Cell} {t : Tree} {base' : Int} {room' : Nat}
    (ranked : ∀ t' : Tree, t'.Ranked base' room' Priority.logical →
      (Tree.group o t' c).Ranked base room floor)
    (inner : Advances m f (pre ++ [o]) ([c] ++ post) base' room' Priority.logical t) :
    Advances m f pre post base room floor (.group o t c) := by
  rcases inner with ⟨t', ids, acts, reduct⟩ | ⟨e, acts, blames⟩
  · refine .inl ⟨.group o t' c, ids, ?_, ?_⟩
    · rw [acts]
      simp [Tree.cells]
    · refine
        { ranked := ranked t' reduct.ranked
          value := reduct.value
          weight := ?_
          refs := by simpa [Tree.cells] using reduct.refs
          keeps := reduct.keeps.group
          waits := by simp [isWaiting]
          computes := by simp [expr, Expr.isPrimary] }
      have := reduct.weight
      simp only [Tree.weight]
      omega
  · exact .inr ⟨e, acts, blames⟩

theorem Advances.before {op : Operator} {waits : Bool} {c : Cell} {t : Tree}
    (ranked : (Tree.before op waits c t).Ranked base room floor)
    (above : c.token.priority < f.cell.token.priority)
    (inner : Advances m f (pre ++ [c]) post base room Priority.power t) :
    Advances m f pre post base room floor (.before op waits c t) := by
  obtain ⟨unary, kind, -, power, rank⟩ := ranked
  rcases inner with ⟨t', ids, acts, reduct⟩ | ⟨e, acts, blames⟩
  · have keeps := reduct.keeps
    refine .inl ⟨.before op waits c t', ids, ?_, ?_⟩
    · rw [acts]
      simp [Tree.cells]
    · refine
        { ranked := ⟨unary, kind, reduct.ranked, ?_, ?_⟩
          value := by simp [value?, reduct.value]
          weight := ?_
          refs := by simpa [Tree.cells] using reduct.refs
          keeps := ?_
          waits := .inl
          computes := by simp [expr, Expr.isPrimary] }
      · exact fun negation => keeps.power (power negation)
      · cases waits with
        | true => exact ⟨rank.1, rank.2.1, keeps.starts rank.2.2⟩
        | false => exact rank
      · have := reduct.weight
        simp only [Tree.weight]
        omega
      · refine keeps.before fun first => ?_
        -- An operator that waits meets no other one.
        cases waits with
        | true => simp [rank.2.2] at first
        | false =>
            simp only [Bool.false_eq_true, if_false] at rank
            omega
  · refine .inr ⟨e, acts, blames.imp (fun none => ?_) fun clash => ?_⟩
    · simp [value?, none]
    · exact ⟨by simp [expr, Expr.clashes, clash.1], clash.2⟩

theorem Advances.left {op : Operator} {l r : Tree} {c : Cell}
    (ranked : (Tree.between op l c r).Ranked base room floor)
    (inner : Advances m f pre (c :: r.cells ++ post) base room op.priority l) :
    Advances m f pre post base room floor (.between op l c r) := by
  obtain ⟨binary, kind, rank, low, -, right, ends, waits⟩ := ranked
  rcases inner with ⟨l', ids, acts, reduct⟩ | ⟨e, acts, blames⟩
  · have keeps := reduct.keeps
    refine .inl ⟨.between op l' c r, ids, ?_, ?_⟩
    · rw [acts]
      simp [Tree.cells]
    · refine
        { ranked := ⟨binary, kind, rank, low, reduct.ranked, right, ?_, waits⟩
          value := by simp [value?, reduct.value]
          weight := ?_
          refs := by simpa [Tree.cells] using reduct.refs
          keeps := keeps.left _
          waits := by simp [isWaiting]
          computes := by simp [expr, Expr.isPrimary] }
      · exact fun power => keeps.ends (ends power)
      · have := reduct.weight
        simp only [Tree.weight]
        omega
  · refine .inr ⟨e, acts, blames.imp (fun none => ?_) fun clash => ?_⟩
    · simp [value?, none]
    · exact ⟨by simp [expr, Expr.clashes, clash.1], clash.2⟩

theorem Advances.right {op : Operator} {l r : Tree} {c : Cell}
    (ranked : (Tree.between op l c r).Ranked base room floor)
    (above : c.token.priority < f.cell.token.priority)
    (inner : Advances m f (pre ++ (l.cells ++ [c])) post base room (op.priority + 1) r) :
    Advances m f pre post base room floor (.between op l c r) := by
  obtain ⟨binary, kind, rank, low, left, -, ends, waits⟩ := ranked
  rcases inner with ⟨r', ids, acts, reduct⟩ | ⟨e, acts, blames⟩
  · have keeps := reduct.keeps
    have high : op = .pow → base + Priority.power < f.cell.token.priority := by
      rintro rfl
      exact rank ▸ above
    refine .inl ⟨.between op l c r', ids, ?_, ?_⟩
    · rw [acts]
      simp [Tree.cells]
    · refine
        { ranked := ⟨binary, kind, rank, low, left, reduct.ranked, ends, ?_⟩
          value := by simp [value?, reduct.value]
          weight := ?_
          refs := by simpa [Tree.cells] using reduct.refs
          keeps := keeps.right _ high
          waits := by simp [isWaiting]
          computes := by simp [expr, Expr.isPrimary] }
      · intro power waiting
        rcases reduct.waits waiting with before | after
        · exact keeps.keepsNegated (high power) (waits power before)
        · exact after
      · have := reduct.weight
        simp only [Tree.weight]
        omega
  · refine .inr ⟨e, acts, blames.imp (fun none => ?_) fun clash => ?_⟩
    · cases h : l.value? m <;> simp [value?, none, h]
    · exact ⟨by simp [expr, Expr.clashes, clash.1], clash.2⟩

theorem compound_of_chosen {t : Tree} (ranked : t.Ranked base room floor)
    (cells : t.cells = u ++ f.cell :: v) (positive : 0 < f.cell.token.priority) :
    ∀ c, t ≠ .leaf c := by
  rintro c rfl
  have idle := ranked.2
  have here : c = f.cell := by
    cases u with
    | nil => simpa [Tree.cells] using congrArg List.head? cells
    | cons d u => simp [Tree.cells] at cells
  simp only [Idle, here, Priority.boost] at idle
  omega

theorem append_eq_focus {a b : List Cell} {x : Cell} (same : a ++ b = u ++ x :: v) :
    (∃ w, a = u ++ x :: w ∧ v = w ++ b) ∨ ∃ w, b = w ++ x :: v ∧ u = a ++ w := by
  rcases List.append_eq_append_iff.1 same with ⟨w, hu, hb⟩ | ⟨w, ha, hx⟩
  · exact .inr ⟨w, hb, hu⟩
  · cases w with
    | nil => exact .inr ⟨[], by simpa using hx.symm, by simpa using ha.symm⟩
    | cons d w =>
        simp only [List.cons_append, List.cons.injEq] at hx
        exact .inl ⟨w, by rw [ha, hx.1], hx.2⟩

/-- An action on the chosen cell of a tree reduces the tree, or fails for a reason in the tree. -/
theorem act_reduct {t : Tree} (distinct : m.work.line.Distinct)
    (whole : f.cells = m.work.line.cells) (ranked : t.Ranked base room floor)
    (small : room ≤ Expr.maxDepth)
    (inside : Inside f pre u t v post) (positive : 0 < f.cell.token.priority)
    (follow : t.expr.endsNegated = true → ∀ d, post.head? = some d →
    d.token.kind ≠ .operator .pow) :
    Advances m f pre post base room floor t := by
  induction t generalizing base room floor pre post u v with
  | leaf c => exact absurd rfl (compound_of_chosen ranked inside.cells positive c)
  | group o t c ih =>
      have cells := inside.cells
      simp only [Tree.cells] at cells
      cases u with
      | nil =>
          simp only [List.nil_append] at cells
          obtain ⟨rfl, rfl⟩ := cells
          exact advances_group distinct whole ranked inside rfl
      | cons d u =>
          simp only [List.cons_append, List.cons.injEq] at cells
          obtain ⟨rfl, cells⟩ := cells
          rcases append_eq_focus cells with ⟨w, ht, hv⟩ | ⟨w, hc, hu⟩
          · -- The content of the parentheses acts, whether they have been reached or not.
            have part := inside.part (a := [o]) (w := u) rfl hv ht
            have plain : ∀ d, ([c] ++ post).head? = some d → d.token.kind ≠ .operator .pow := by
              intro d hd
              cases hd
              simp [ranked.2.2.1]
            obtain ⟨ho, rank, hc, idle, reached, unreached⟩ := ranked
            cases expanded : o.token.expanded with
            | true =>
                refine Advances.group (fun t' ranked' => ⟨ho, rank, hc, idle, fun _ => ranked', ?_⟩)
                  (ih (reached expanded) small part fun _ => plain)
                simp [expanded]
            | false =>
                obtain ⟨room', inner⟩ := unreached expanded
                refine Advances.group (fun t' ranked' => ⟨ho, rank, hc, idle, ?_,
                  fun _ => ⟨room', ranked'⟩⟩) (ih inner room' part fun _ => plain)
                simp [expanded]
          · -- A closing parenthesis never acts.
            have here : c = f.cell := by
              cases w with
              | nil => simpa using congrArg List.head? hc
              | cons e w => simp at hc
            have idle := ranked.2.2.2.1
            simp only [Idle, here, Priority.boost] at idle
            omega
  | before op waits c t ih =>
      have cells := inside.cells
      simp only [Tree.cells] at cells
      cases u with
      | nil =>
          simp only [List.nil_append, List.cons.injEq] at cells
          obtain ⟨rfl, rfl⟩ := cells
          exact advances_before distinct whole ranked small inside rfl
            (fun negation => follow (by simp [expr, Expr.endsNegated, negation]))
      | cons d u =>
          simp only [List.cons_append, List.cons.injEq] at cells
          obtain ⟨rfl, cells⟩ := cells
          have part := inside.part (a := [c]) (b := []) (w := u) rfl (by simp) cells
          exact Advances.before ranked (inside.left c (by simp)) (ih ranked.2.2.1 small
            (by simpa using part) (fun h => follow (by simp [expr, Expr.endsNegated, h])))
  | between op l c r ihl ihr =>
      rcases append_eq_focus inside.cells with ⟨w, hl, hv⟩ | ⟨w, hr, hu⟩
      · have part := inside.part (a := []) (w := u) (by simp) hv hl
        refine Advances.left ranked (ihl ranked.2.2.2.2.1 small (by simpa using part) ?_)
        intro ends d hd
        cases hd
        by_cases power : op = .pow
        · simp [ranked.2.2.2.2.2.2.1 power] at ends
        · simp [ranked.2.1, power]
      · cases w with
        | nil =>
            simp only [List.nil_append, List.cons.injEq] at hr
            obtain ⟨rfl, rfl⟩ := hr
            exact advances_between distinct whole ranked small (by simpa [hu] using inside) rfl
        | cons d w =>
            simp only [List.cons_append, List.cons.injEq] at hr
            obtain ⟨rfl, hr⟩ := hr
            have part := inside.part (a := l.cells ++ [c]) (b := []) (w := w) (by simp [hu])
              (by simp) hr
            exact Advances.right ranked (inside.left c (by simp [hu])) (ihr ranked.2.2.2.2.2.1 small
              (by simpa using part) (fun h => follow h))

end

end Tree

namespace Machine

/-- A line holds a ranked tree between cells that act only when the tree is a leaf. -/
structure Holds (m : Machine) (base : Int) (pre : List Cell) (t : Tree) (post : List Cell) :
    Prop where
  ready : m.Ready
  cells : m.work.line.cells = pre ++ t.cells ++ post
  ranked : t.Ranked base 0 Priority.logical
  outside : ∀ c ∈ pre ++ post, c.token.priority ≤ base
  noBrace : ∀ c, pre.head? = some c → c.token.kind.isScopeBracket = false
  follow : ∀ d, post.head? = some d → d.token.kind ≠ .operator .pow
  nonneg : 0 ≤ base := by decide

section
variable {m : Machine} {base : Int} {pre post : List Cell} {t : Tree}

theorem Holds.head_noBrace (holds : m.Holds base pre t post) :
    ∀ c, m.work.line.cells.head? = some c → c.token.kind.isScopeBracket = false := by
  intro c hc
  rw [holds.cells] at hc
  cases pre with
  | cons d pre => exact holds.noBrace c hc
  | nil =>
      cases cells : t.cells with
      | nil => exact absurd cells t.cells_ne_nil
      | cons d ds =>
          simp only [cells, List.nil_append, List.cons_append, List.head?_cons,
            Option.some.injEq] at hc
          exact Tree.noBrace holds.ranked c (by simp [cells, hc])

theorem Holds.inside (holds : m.Holds base pre t post) (compound : ∀ c, t ≠ .leaf c) {f : Focus}
    (same : f.cells = m.work.line.cells) (chosen : f.Chosen) :
    (∃ u v, Tree.Inside f pre u t v post) ∧ 0 < f.cell.token.priority := by
  obtain ⟨top, member, high⟩ :=
    Tree.exists_active holds.ranked (by decide) (fun _ => by decide) compound
  simp only [Priority.logical] at high
  have cells : f.before.reverse ++ f.cell :: f.after = pre ++ t.cells ++ post := by
    rw [← holds.cells, ← same, Focus.cells]
  have above : base < f.cell.token.priority := by
    have : top ∈ f.before.reverse ++ f.cell :: f.after := by
      rw [cells]
      simp [member]
    rcases List.mem_append.1 this with before | after
    · have := chosen.left top (List.mem_reverse.1 before)
      omega
    · rcases List.mem_cons.1 after with rfl | after
      · omega
      · have := chosen.right top after
        omega
  refine ⟨?_, Int.lt_of_le_of_lt holds.nonneg above⟩
  have notOutside : f.cell ∉ pre ++ post := by
    intro outside
    have := holds.outside f.cell outside
    omega
  rw [List.append_assoc] at cells
  rcases Tree.append_eq_focus cells.symm with ⟨w, hp, -⟩ | ⟨u, hrest, hb⟩
  · exact absurd (by simp [hp]) notOutside
  · rcases Tree.append_eq_focus hrest with ⟨v, ht, ha⟩ | ⟨w, hp, -⟩
    · refine ⟨u, v, ⟨ht, ?_, ha, ?_, ?_⟩⟩
      · rw [← List.reverse_reverse f.before, hb]
        simp
      · intro c hc
        exact chosen.left c (List.mem_reverse.1 (by rw [hb]; simp [hc]))
      · intro c hc
        exact chosen.right c (by rw [ha]; simp [hc])
    · exact absurd (by simp [hp]) notOutside

theorem Holds.next (holds : m.Holds base pre t post) (compound : ∀ c, t ≠ .leaf c) :
    (∃ t' ids p, m.next = .ok (m.onLine (pre ++ t'.cells ++ post) ids) ∧
        Tree.Reduct m base 0 Priority.logical p t t') ∨
      ∃ e, m.next = .error (.error e) ∧ t.Blames m e := by
  have noBrace := holds.head_noBrace
  obtain ⟨first, isFirst⟩ : ∃ c, m.work.line.cells.head? = some c := by
    cases h : m.work.line.cells with
    | nil =>
        have := t.cells_ne_nil
        rw [holds.cells] at h
        simp [this] at h
    | cons c cs => exact ⟨c, rfl⟩
  obtain ⟨f, same, chosen, -⟩ := Line.exists_chosen isFirst (noBrace first isFirst)
  obtain ⟨⟨u, v, inside⟩, positive⟩ := holds.inside compound same chosen
  rw [next_chosen holds.ready same noBrace chosen]
  rcases Tree.act_reduct holds.ready.distinct same holds.ranked (by decide) inside positive
    (fun _ => holds.follow) with ⟨t', ids, acts, reduct⟩ | ⟨e, acts, blames⟩
  · exact .inl ⟨t', ids, _, by rw [acts]; rfl, reduct⟩
  · exact .inr ⟨e, by rw [acts]; rfl, blames⟩

structure ComesTo (m : Machine) (t : Tree) (x : Cell) : Prop where
  operand : x.token.kind.isOperand = true
  idle : x.token.priority < Priority.deferred
  value : (m.valueOf x.token).toOption = t.value? m
  member : x.ref ∈ t.cells.map Cell.ref
  calm : t.expr.clashes = false
  /-- Unless it was there from the start, the operand is the result of an operation. -/
  computed : t.expr.isPrimary = false → t.value? m ≠ none

theorem ComesTo.of_reduct {t' : Tree} {x : Cell} {room : Nat} {floor p : Int}
    (comes : m.ComesTo t' x) (reduct : Tree.Reduct m base room floor p t t') : m.ComesTo t x where
  operand := comes.operand
  idle := comes.idle
  value := comes.value.trans reduct.value
  member := reduct.refs.subset comes.member
  calm := reduct.keeps.clashes ▸ comes.calm
  computed := by
    intro compound
    cases primary : t'.expr.isPrimary with
    | true => exact reduct.computes compound primary
    | false => exact reduct.value ▸ comes.computed primary

@[simp] theorem comesTo_onLine (cells : List Cell) (ids : Nat) {x : Cell} :
    (m.onLine cells ids).ComesTo t x ↔ m.ComesTo t x := by
  constructor <;> rintro ⟨operand, idle, value, member, calm, computed⟩ <;>
    exact ⟨operand, idle, by simpa using value, member, calm, by simpa using computed⟩

/-- A run reduces the tree of a line to one operand, or fails for a reason in the tree.  Until then
nothing but the tree and the next identity changes. -/
theorem Holds.trace (holds : m.Holds base pre t post) :
    ∃ n, m.Stays (fun m' => ∃ t' ids, Tree.Ranked base 0 Priority.logical t' ∧
        m' = m.onLine (pre ++ t'.cells ++ post) ids) n ∧
      ((∃ x ids, m.after n = .ok (m.onLine (pre ++ x :: post) ids) ∧ m.ComesTo t x) ∨
        ∃ m' e, m.after n = .ok m' ∧ m'.next = .error (.error e) ∧ t.Blames m e) := by
  induction weight : t.weight using Nat.strongRecOn generalizing m t with
  | ind w ih =>
      have here : ∃ t' ids, Tree.Ranked base 0 Priority.logical t' ∧
          m = m.onLine (pre ++ t'.cells ++ post) ids := by
        refine ⟨t, 0, holds.ranked, ?_⟩
        rw [← holds.cells]
        exact m.onLine_self.symm
      by_cases compound : ∀ c, t ≠ .leaf c
      · rcases holds.next compound with ⟨t', ids, p, step, reduct⟩ | ⟨e, failed, blames⟩
        · have fewer : ((pre ++ t'.cells ++ post).map Cell.ref).Sublist m.work.line.refs := by
            rw [Line.refs, holds.cells]
            simp only [List.map_append]
            exact (reduct.refs.append_left _).append_right _
          have holds' : (m.onLine (pre ++ t'.cells ++ post) ids).Holds base pre t' post :=
            { ready := holds.ready.onLine fewer
              cells := rfl
              ranked := reduct.ranked
              outside := holds.outside
              noBrace := holds.noBrace
              follow := holds.follow
              nonneg := holds.nonneg }
          obtain ⟨n, stays, result⟩ := ih t'.weight (weight ▸ reduct.weight) holds' rfl
          refine ⟨n + 1, stays_succ here step (stays.mono ?_), ?_⟩
          · rintro m' ⟨t'', ids', ranked, rfl⟩
            exact ⟨t'', ids + ids', ranked, by simp⟩
          · rw [after_succ, step]
            rcases result with ⟨x, ids', reached, comes⟩ | ⟨m', e, reached, failed, blames⟩
            · refine .inl ⟨x, ids + ids', ?_, ?_⟩
              · rw [← onLine_onLine]
                exact reached
              · exact ((comesTo_onLine _ _).1 comes).of_reduct reduct
            · refine .inr ⟨m', e, reached, failed, ?_⟩
              rw [Tree.Blames, Tree.value?_onLine, reduct.value, reduct.keeps.clashes] at blames
              exact blames
        · exact ⟨0, stays_zero here, .inr ⟨m, e, rfl, failed, blames⟩⟩
      · cases t with
        | leaf x =>
            refine ⟨0, stays_zero here, .inl ⟨x, 0, ?_, ?_⟩⟩
            · have cells := holds.cells
              simp only [Tree.cells, List.append_assoc, List.singleton_append] at cells
              rw [← cells]
              rfl
            · refine ⟨holds.ranked.1, ?_, rfl, by simp [Tree.cells], by simp [Tree.expr],
                by simp [Tree.expr]⟩
              have idle := holds.ranked.2
              simp only [Tree.Idle, Priority.boost, Priority.deferred] at idle ⊢
              omega
        | _ => exact absurd (by simp) compound

theorem Holds.after (holds : m.Holds base pre t post) :
    ∃ n, m.Stays (fun m' => ∃ cells ids, m' = m.onLine cells ids) n ∧
      ((∃ x ids, m.after n = .ok (m.onLine (pre ++ x :: post) ids) ∧ m.ComesTo t x) ∨
        ∃ m' e, m.after n = .ok m' ∧ m'.next = .error (.error e) ∧ t.Blames m e) := by
  obtain ⟨n, stays, result⟩ := holds.trace
  refine ⟨n, stays.mono ?_, result⟩
  rintro m' ⟨t', ids, -, same⟩
  exact ⟨_, ids, same⟩

end

end Machine

end LineScript
