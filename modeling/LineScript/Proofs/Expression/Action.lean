import LineScript.Proofs.Choice

/-!
# What the operators do to a line

The outcome of an action on an operator or a parenthesis that stands where it can act.
`Machine.onLine` is the machine with other cells in its working line and some identities used up,
which is all that these actions change.
-/

namespace LineScript

namespace Machine

theorem valueOf_error {m : Machine} {t : Token} {stop : Stop} (failed : m.valueOf t = .error stop) :
    ∃ e, stop = .error e := by
  cases kind : t.kind with
  | literal v => simp [valueOf, kind] at failed
  | name s =>
      simp only [valueOf, kind] at failed
      cases look : m.valueOfName s with
      | ok v => simp [look] at failed
      | error cause =>
          simp only [look, Except.mapError_error_eq, Except.error.injEq] at failed
          exact ⟨_, failed.symm⟩
  | _ =>
      simp only [valueOf, kind, Except.error.injEq] at failed
      exact ⟨_, failed.symm⟩

@[simp] theorem valueOf_literal (m : Machine) (v : Value) (id line : Nat) :
    m.valueOf (.literal v id line) = .ok v := rfl

theorem Ready.onLine {m : Machine} (ready : m.Ready) {cells : List Cell} {ids : Nat}
    (fewer : (cells.map Cell.ref).Sublist m.work.line.refs) : (m.onLine cells ids).Ready where
  running := ready.running
  unselected := ready.unselected
  distinct := ready.distinct.sublist fewer

end Machine

namespace Action

theorem outcome_act {m : Machine} {f : Focus} (acts : f.cell.token.kind.isInert = false) :
    (act f).outcome m = (perform f).outcome m := by
  unfold act
  simp only [acts, Bool.false_eq_true, if_false]
  rw [outcome_bind]
  simp only [outcome_get, Except.bind_ok]
  rw [outcome_bind]
  simp

theorem outcome_act_operator {m : Machine} {f : Focus} {op : Operator}
    (kind : f.cell.token.kind = .operator op) :
    (act f).outcome m =
      (if op.isAssignment then assign f op
        else if op.isUnary then applyUnary f op
        else applyBinary f op).outcome m := by
  rw [outcome_act (by simp [kind, TokenKind.isInert])]
  simp only [perform, kind]

theorem outcome_act_paren {m : Machine} {f : Focus} {b : Bracket}
    (kind : f.cell.token.kind = .bracket b .opening) (paren : b ≠ .scope) :
    (act f).outcome m = (applyParen f b).outcome m := by
  rw [outcome_act (by cases b <;> simp [kind, TokenKind.isInert])]
  cases b with
  | scope => exact absurd rfl paren
  | _ => simp only [perform, kind]

theorem isAssignment_of_isUnary {op : Operator} (unary : op.isUnary = true) :
    op.isAssignment = false := by
  cases op <;> simp_all [Operator.isUnary, Operator.isAssignment, Operator.operation?]

theorem outcome_asOperand {f : Focus} {c : Cell} (m : Machine)
    (operand : c.token.kind.isOperand = true) : (asOperand f (some c)).outcome m = .ok (c, m) := by
  simp [asOperand, operand]

theorem outcome_asOperand_stray {f : Focus} {c : Cell} (m : Machine)
    (other : c.token.kind.isOperand = false) :
    (asOperand f (some c)).outcome m = .error (.error f.cell.token.stray) := by
  simp [asOperand, other]

theorem outcome_act_between {m : Machine} {f : Focus} {op : Operator} {l r : Cell}
    {before after : List Cell} (distinct : m.work.line.Distinct)
    (whole : f.cells = m.work.line.cells) (kind : f.cell.token.kind = .operator op)
    (binary : op.isUnary = false ∧ op.isAssignment = false)
    (hb : f.before = l :: before) (ha : f.after = r :: after)
    (hl : l.token.kind.isOperand = true) (hr : r.token.kind.isOperand = true) :
    (act f).outcome m =
      (m.valueOf l.token).bind fun a => (m.valueOf r.token).bind fun b =>
        ((op.applyBetween a b).mapError (.at f.cell.token.line)).map fun v =>
          ((), m.onLine (before.reverse ++
            { f.cell with token := .literal v m.nextId f.cell.token.line } :: after) 1) := by
  have reduced (v : Value) := (settles_between (l := l) (r := r) whole
    (by rw [Focus.prev?, hb]; rfl)
    (by rw [Focus.next?, ha]; rfl) v).outcome distinct
  simp only [hb, ha, List.tail_cons] at reduced
  rw [outcome_act_operator kind]
  simp only [binary.1, binary.2, Bool.false_eq_true, if_false]
  simp only [applyBinary, leftOperand, rightOperand, Focus.prev?, Focus.next?, hb, ha,
    List.head?_cons]
  rw [outcome_bind, outcome_asOperand m hl]
  simp only [Except.bind_ok]
  rw [outcome_bind, outcome_asOperand m hr]
  simp only [Except.bind_ok]
  rw [outcome_bind, outcome_valueOf]
  cases m.valueOf l.token with
  | error stop => rfl
  | ok a =>
      simp only [Except.map_ok_eq, Except.bind_ok]
      rw [outcome_bind, outcome_valueOf]
      cases m.valueOf r.token with
      | error stop => rfl
      | ok b =>
          simp only [Except.map_ok_eq, Except.bind_ok]
          rw [outcome_bind, outcome_ofCause]
          cases op.applyBetween a b with
          | error cause => rfl
          | ok v => exact (outcome_bind_of_ok rfl).trans (reduced v)

theorem outcome_act_operator_stray {m : Machine} {f : Focus} {op : Operator} {x : Cell}
    {after : List Cell} (kind : f.cell.token.kind = .operator op)
    (notAssignment : op.isAssignment = false)
    (left : op.isUnary = false → ∃ l before, f.before = l :: before ∧ l.token.kind.isOperand = true)
    (ha : f.after = x :: after) (hx : x.token.kind.isOperand = false) :
    (act f).outcome m = .error (.error f.cell.token.stray) := by
  rw [outcome_act_operator kind]
  simp only [notAssignment, Bool.false_eq_true, if_false]
  cases unary : op.isUnary with
  | true =>
      simp only [if_true, applyUnary, rightOperand, Focus.next?, ha, List.head?_cons]
      rw [outcome_bind, outcome_asOperand_stray m hx]
      rfl
  | false =>
      obtain ⟨l, before, hb, hl⟩ := left unary
      simp only [Bool.false_eq_true, if_false, applyBinary, leftOperand, rightOperand, Focus.prev?,
        Focus.next?, hb, ha, List.head?_cons]
      rw [outcome_bind, outcome_asOperand m hl]
      simp only [Except.bind_ok]
      rw [outcome_bind, outcome_asOperand_stray m hx]
      rfl

theorem outcome_act_before {m : Machine} {f : Focus} {op : Operator} {x : Cell}
    {after : List Cell} (distinct : m.work.line.Distinct) (whole : f.cells = m.work.line.cells)
    (kind : f.cell.token.kind = .operator op) (unary : op.isUnary = true)
    (ha : f.after = x :: after) (hx : x.token.kind.isOperand = true)
    (free : waitsBelow? f op = none) :
    (act f).outcome m =
      (m.valueOf x.token).bind fun a =>
        ((op.applyBefore a).mapError (.at f.cell.token.line)).map fun v =>
          ((), m.onLine (f.before.reverse ++
            { f.cell with token := .literal v m.nextId f.cell.token.line } :: after) 1) := by
  have notAssignment := isAssignment_of_isUnary unary
  have reduced (v : Value) := (settles_before (r := x) whole
    (by rw [Focus.next?, ha]; rfl) v).outcome
    distinct
  simp only [ha, List.tail_cons] at reduced
  rw [outcome_act_operator kind]
  simp only [unary, notAssignment, Bool.false_eq_true, if_false, if_true]
  simp only [applyUnary, rightOperand, Focus.next?, ha, List.head?_cons, free]
  rw [outcome_bind, outcome_asOperand m hx]
  simp only [Except.bind_ok]
  rw [outcome_bind, outcome_valueOf]
  cases m.valueOf x.token with
  | error stop => rfl
  | ok a =>
      simp only [Except.map_ok_eq, Except.bind_ok]
      rw [outcome_bind, outcome_ofCause]
      cases op.applyBefore a with
      | error cause => rfl
      | ok v => exact reduced v

theorem outcome_act_waits {m : Machine} {f : Focus} {x p : Cell} {after : List Cell}
    (distinct : m.work.line.Distinct) (whole : f.cells = m.work.line.cells)
    (kind : f.cell.token.kind = .operator .negate) (ha : f.after = x :: p :: after)
    (hx : x.token.kind.isOperand = true) (hp : p.token.kind = .operator .pow)
    (high : p.token.priority ≤ f.cell.token.priority) :
    (act f).outcome m =
      .ok ((), m.onLine (f.before.reverse ++
        { f.cell with token := { f.cell.token with priority := p.token.priority - 1 } } ::
          x :: p :: after) 0) := by
  have lowered : waitsBelow? f .negate = some (p.token.priority - 1) := by
    simp [waitsBelow?, powerAfter?, ha, hp, high]
  rw [outcome_act_operator kind]
  simp only [Operator.isUnary, Operator.isAssignment, Operator.operation?, reduceCtorEq,
    decide_false, Option.isSome_none, Bool.or_self, Bool.false_eq_true, if_false, if_true]
  simp only [applyUnary, rightOperand, Focus.next?, ha, List.head?_cons, lowered]
  rw [outcome_bind, outcome_asOperand m hx]
  simp only [Except.bind_ok]
  have settled := (settles_wait whole (p.token.priority - 1)).outcome distinct
  simp only [Focus.cells, ha] at settled
  exact (outcome_bind_of_ok rfl).trans settled

theorem outcome_act_opening {m : Machine} {f : Focus} {b : Bracket} {inner rest : List Cell}
    {close : Cell} (distinct : m.work.line.Distinct) (whole : f.cells = m.work.line.cells)
    (kind : f.cell.token.kind = .bracket b .opening) (paren : b ≠ .scope)
    (fresh : f.cell.token.expanded = false)
    (split : Line.splitClose? b 0 f.after = some (inner, close, rest)) :
    (act f).outcome m =
      .ok ((), m.onLine (f.before.reverse ++
        { f.cell with token := { f.cell.token with expanded := true } } ::
          inner.map (Line.boostCell Priority.boost) ++ close :: rest) 0) := by
  have ahead := (Line.splitClose?_append split).symm
  have settled := (settles_reached whole ahead).outcome distinct
  rw [Line.boostUntil_inner distinct whole ahead] at settled
  rw [outcome_act_paren kind paren]
  simpa [applyParen, Line.enclosed_eq kind, ofFault_ok_bind, split, fresh] using settled

theorem outcome_act_group {m : Machine} {f : Focus} {x close : Cell} {rest : List Cell}
    (distinct : m.work.line.Distinct) (whole : f.cells = m.work.line.cells)
    (kind : f.cell.token.kind = .bracket .paren .opening) (reached : f.cell.token.expanded = true)
    (split : Line.splitClose? .paren 0 f.after = some ([x], close, rest))
    (operand : x.token.kind.isOperand = true) :
    (act f).outcome m = .ok ((), m.onLine (f.before.reverse ++ x :: rest) 0) := by
  have settled := (settles_unwrapped whole (Line.splitClose?_append split).symm).outcome distinct
  rw [outcome_act_paren kind (by decide)]
  simpa [applyParen, Line.enclosed_eq kind, ofFault_ok_bind, split, reached, operand] using settled

def assignedValue (symbols : Symbols) (op : Operator) (name : String) (operand : Value) :
    Except Cause Value :=
  match op.operation? with
  | none => .ok operand
  | some base => (symbols.lookup name).bind fun old => base.applyBetween old.value operand

def assignment (symbols : Symbols) (op : Operator) (name : String) (declared : Option ValueType)
    (operand : Value) : Except Cause (Value × Symbols) :=
  (assignedValue symbols op name operand).bind fun value =>
    (assigned symbols op name declared value).map fun symbols => (value, symbols)

theorem outcome_act_assign {m : Machine} {f : Focus} {op : Operator} {name : String}
    {declared : Option ValueType} {x : Cell} {before after : List Cell}
    (distinct : m.work.line.Distinct) (whole : f.cells = m.work.line.cells)
    (kind : f.cell.token.kind = .operator op) (assigns : op.isAssignment = true)
    (target : assignmentTarget? f.before = some (name, declared, before))
    (ha : f.after = x :: after) (hx : x.token.kind.isOperand = true) :
    (act f).outcome m =
      (m.valueOf x.token).bind fun v =>
        ((assignment m.symbols op name declared v).mapError (.at f.cell.token.line)).map
          fun (value, symbols) => ((), { m with symbols }.onLine (before.reverse ++
            { f.cell with token := .literal value m.nextId f.cell.token.line } :: after) 1) := by
  rw [outcome_act_operator kind]
  simp only [assigns, if_true]
  simp only [assign, target, rightOperand, Focus.next?, ha, List.head?_cons]
  rw [outcome_bind, outcome_asOperand m hx]
  simp only [Except.bind_ok]
  rw [outcome_bind, outcome_valueOf]
  cases m.valueOf x.token with
  | error stop => rfl
  | ok v =>
      simp only [Except.map_ok_eq, Except.bind_ok]
      rw [outcome_bind]
      simp only [outcome_get, Except.bind_ok, assignment, assignedValue]
      have bound : ∀ value : Value,
          ((ofCause f.cell.token.line (assigned m.symbols op name declared value) >>= fun symbols =>
            setSymbols symbols >>= fun _ => emit (.assigned name value) >>= fun _ =>
            (do
              if declared.isSome then removeEach (f.before.tail.take 1)
              answer f.cell.ref value
              removeEach (f.before.take 1)
              remove x.ref)).outcome m) =
          ((assigned m.symbols op name declared value).mapError (.at f.cell.token.line)).map
            fun symbols => ((), { m with symbols }.onLine (before.reverse ++
              { f.cell with token := .literal value m.nextId f.cell.token.line } :: after) 1) := by
        intro value
        rw [outcome_bind, outcome_ofCause]
        cases assigned m.symbols op name declared value with
        | error cause => rfl
        | ok symbols =>
            have settled := (settles_assigned (m := { m with symbols }) (r := x) whole target
              (by rw [Focus.next?, ha]; rfl) value).outcome distinct
            rw [ha, List.tail_cons] at settled
            exact settled
      cases op.operation? with
      | none =>
          rw [outcome_bind, outcome_pure]
          simp only [Except.bind_ok]
          rw [bound]
          cases assigned m.symbols op name declared v <;> rfl
      | some base =>
          simp only [Except.bind_eq_bind]
          rw [outcome_bind, outcome_ofCause]
          cases m.symbols.lookup name with
          | error cause => rfl
          | ok old =>
              simp only [Except.bind_ok]
              cases base.applyBetween old.value v with
              | error cause => rfl
              | ok value =>
                  simp only [Except.mapError_ok_eq, Except.map_ok_eq, Except.bind_ok]
                  rw [bound]
                  cases assigned m.symbols op name declared value <;> rfl

end Action

end LineScript
