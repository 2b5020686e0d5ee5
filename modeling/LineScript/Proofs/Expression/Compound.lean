import LineScript.Proofs.Expression.Precedence
import LineScript.Proofs.Termination

/-!
# Compound assignments

The statement `x op= e` looks up `x` and computes inside the assignment; `x = x op (e)` reduces a
longer line and computes before it.  Both come to the same: reductions complete both lines with the
same variables, or a step of each fails and the variables are as they were
(`Machine.compound_is_sugar`).
-/

namespace LineScript

namespace Machine

variable {m m' : Machine} {x : String} {e : Expr} {op base : Operator}

/-- Reductions complete the working line, and then the variables are `s`. -/
def CompletesWith (m : Machine) (s : Symbols) : Prop :=
  ∃ n m', m.ReducesTo n m' ∧ m'.Completes ∧ m'.symbols = s

/-- Reductions of the working line come to a step that fails, and the variables are as they were. -/
def FailsUnchanged (m : Machine) : Prop :=
  ∃ n m' e, m.ReducesTo n m' ∧ ¬ m'.Completes ∧ m'.next = .error (.error e) ∧
    m'.step.machine.symbols = m.symbols

theorem ReducesTo.unique {n k : Nat} {a b : Machine} (first : m.ReducesTo n a)
    (second : m.ReducesTo k b) (endA : ∀ c, ¬ a.Reduces c) (endB : ∀ c, ¬ b.Reduces c) : a = b := by
  induction first generalizing k with
  | refl m =>
      cases second with
      | refl => rfl
      | step reduces _ => exact absurd reduces (endA _)
  | step reduces _ ih =>
      cases second with
      | refl => exact absurd reduces (endB _)
      | step reduces' rest =>
          obtain rfl := Except.ok.inj (reduces.step.symm.trans reduces'.step)
          exact ih rest endA

theorem CompletesWith.not_fails {s : Symbols} (completes : m.CompletesWith s) :
    ¬ m.FailsUnchanged := by
  obtain ⟨n, a, first, done, -⟩ := completes
  rintro ⟨k, b, e, second, incomplete, failed, -⟩
  have same : a = b := by
    apply first.unique second
    · exact fun _ reduces => reduces.incomplete done
    · intro c reduces
      rw [reduces.step] at failed
      cases failed
  exact incomplete (same ▸ done)

theorem CompletesWith.unique {s s' : Symbols} (first : m.CompletesWith s)
    (second : m.CompletesWith s') : s = s' := by
  obtain ⟨n, a, toA, doneA, rfl⟩ := first
  obtain ⟨k, b, toB, doneB, rfl⟩ := second
  rw [toA.unique toB (fun _ reduces => reduces.incomplete doneA) fun _ reduces =>
    reduces.incomplete doneB]

/-!
## Lines that compute
-/

structure Computes (m : Machine) : Prop where
  running : m.finished = false
  unselected : m.work.selected = none
  kinds : ∀ c ∈ m.work.line.cells, c.token.kind.isExpression = true
  several : 1 < m.work.line.cells.length

theorem Computes.incomplete (computes : m.Computes) : ¬ m.Completes := by
  have several := computes.several
  rintro (none | ⟨c, single, -⟩)
  · simp [none] at several
  · simp [single] at several

theorem Computes.acting (computes : m.Computes) {f : Focus} (acts : m.acting? = some f) :
    f.cell.token.kind.isExpression = true := by
  apply computes.kinds
  rw [← whole_of_acting acts]
  simp [Focus.cells]

theorem Computes.reduces (computes : m.Computes) (step : m.next = .ok m') : m.Reduces m' where
  running := computes.running
  incomplete := computes.incomplete
  stays := by
    rintro ⟨f, acts, passes⟩
    have plain := computes.acting acts
    cases passes with
    | keyword k kind _ => simp [kind, TokenKind.isExpression] at plain
    | call kind _ => simp [kind, TokenKind.isExpression] at plain
    | iteration kind _ => simp [kind, TokenKind.closeBrace, TokenKind.isExpression] at plain
    | ending ends => simp [ends.1, TokenKind.closeBrace, TokenKind.isExpression] at plain
  step := step

theorem Computes.certain (computes : m.Computes) : ¬ m.Exempt := by
  have several := computes.several
  intro exempt
  cases exempt with
  | binding f acts binds => simpa [binds.1, TokenKind.isExpression] using computes.acting acts
  | returning f acts kind => simpa [kind, TokenKind.isExpression] using computes.acting acts
  | ending f acts ends =>
      simpa [ends.1, TokenKind.closeBrace, TokenKind.isExpression] using computes.acting acts
  | signalling c signal alone => simp [alone] at several
  | deciding c alone => simp [alone] at several
  | printing f acts refused => simpa [refused.1, TokenKind.isExpression] using computes.acting acts

theorem result_of_next {stop : Stop} (failed : m.next = .error stop) :
    m.step.result = .error stop := by
  unfold next Action.outcome at failed
  cases result : (Action.step m).result with
  | ok a => simp [result] at failed
  | error stop' =>
      simp only [result, Except.map_error_eq, Except.error.injEq] at failed
      rw [step, result, failed]

theorem Computes.unchanged (computes : m.Computes) {e : RuntimeError}
    (failed : m.next = .error (.error e)) : m.step.machine = m := by
  obtain ⟨f, acts⟩ : ∃ f, m.acting? = some f := by
    cases acts : m.acting? with
    | some f => exact ⟨f, rfl⟩
    | none => exact absurd (.inl (cells_of_acting?_none acts)) computes.incomplete
  have unselected : { m with work := { m.work with selected := none } } = m := by
    rw [← computes.unselected]
  have result := result_of_next failed
  have same : m.step = Action.act f m := by
    rw [step, Action.step_eq_act_of_error computes.running acts result, unselected]
  rw [same] at result
  rw [same]
  exact Action.act_atomic (whole_of_acting acts) acts computes.certain e result

theorem reducesTo_of_computes {n : Nat} (computes : ∀ k < n, ∃ m', m.after k = .ok m' ∧ m'.Computes)
    (reached : m.after n = .ok m') : m.ReducesTo n m' := by
  induction n generalizing m with
  | zero =>
      obtain rfl : m = m' := Except.ok.inj reached
      exact .refl m
  | succ n ih =>
      rw [after_succ] at reached
      cases step : m.next with
      | error stop => simp [step] at reached
      | ok m₁ =>
          rw [step, Except.bind_ok] at reached
          obtain ⟨m₀, here, first⟩ := computes 0 (by omega)
          cases here
          refine .step (first.reduces step) (ih ?_ reached)
          intro k lt
          obtain ⟨m₂, later, computes'⟩ := computes (k + 1) (by omega)
          rw [after_succ, step, Except.bind_ok] at later
          exact ⟨m₂, later, computes'⟩

/-!
## Statements that assign
-/

/-- The working line is a fresh statement that assigns `e` to `x` with the operator `op`. -/
structure AssignsWith (m : Machine) (op : Operator) (x : String) (e : Expr) : Prop where
  ready : m.Ready
  kinds : m.work.line.cells.map (fun c => c.token.kind) = .name x :: .operator op :: e.kinds
  fresh : ∀ c ∈ m.work.line.cells, c.Fresh

def assignmentOf (m : Machine) (op : Operator) (x : String) (e : Expr) :
    Except Cause (Value × Symbols) :=
  (e.eval m.valueOfName).bind (Action.assignment m.symbols op x none)

theorem next_assignment {xc ac c : Cell} (ready : m.Ready) (cells : m.work.line.cells = [xc, ac, c])
    (hx : xc.token.kind = .name x) (ha : ac.token.kind = .operator op)
    (assigns : op.isAssignment = true) (lowX : xc.token.priority < ac.token.priority)
    (lowC : c.token.priority ≤ ac.token.priority) (operand : c.token.kind.isOperand = true) :
    m.next = (m.valueOf c.token).bind fun v =>
      ((Action.assignment m.symbols op x none v).mapError (.at ac.token.line)).map fun r =>
        { m with symbols := r.2 }.onLine
          [{ ac with token := .literal r.1 m.nextId ac.token.line }] 1 := by
  have step := next_chosen (f := ⟨[xc], ac, [c]⟩) ready (by simp [Focus.cells, cells])
    (by simp [cells, hx, TokenKind.isScopeBracket])
    ⟨by simpa using lowX, by simpa using lowC⟩
  have target : Action.assignmentTarget? [xc] = some (x, none, []) := by
    simp [Action.assignmentTarget?, hx]
  rw [Action.outcome_act_assign (f := ⟨[xc], ac, [c]⟩) ready.distinct
    (by simp [Focus.cells, cells]) ha assigns target rfl operand] at step
  rw [step]
  cases m.valueOf c.token with
  | error stop => rfl
  | ok v =>
      rw [Except.bind_ok, Except.bind_ok]
      cases Action.assignment m.symbols op x none v <;> rfl

theorem AssignsWith.exists_holds (assigns : m.AssignsWith op x e)
    (isAssignment : op.isAssignment = true) (wellFormed : e.WellFormed)
    (shallow : e.depth ≤ Expr.maxDepth) :
    ∃ xc ac t, e.TreeOf 0 Priority.logical t ∧ m.Holds 0 [xc, ac] t [] ∧
      xc.token.kind = .name x ∧ ac.token.kind = .operator op ∧
      xc.token.priority = Priority.inert ∧ ac.token.priority = Priority.assignment := by
  obtain ⟨xc, rest, hcells, hx, hrest⟩ := List.map_eq_cons_iff.1 assigns.kinds
  obtain ⟨ac, cells, rfl, ha, hkinds⟩ := List.map_eq_cons_iff.1 hrest
  have fresh := assigns.fresh
  rw [hcells] at fresh
  obtain ⟨t, rfl, tree⟩ := Expr.exists_tree hkinds (fun c hc => fresh c (by simp [hc]))
    wellFormed.composed (by omega : e.depth + 0 ≤ Expr.maxDepth)
  have rankX : xc.token.priority = Priority.inert := by
    rw [(fresh xc (by simp)).1, hx]
    rfl
  have rankA : ac.token.priority = Priority.assignment := by
    rw [(fresh ac (by simp)).1, ha]
    cases op <;> first | rfl | cases isAssignment
  refine ⟨xc, ac, t, tree, ?_, hx, ha, rankX, rankA⟩
  exact
    { ready := assigns.ready
      cells := by simp [hcells]
      ranked := tree.ranked
      outside := by simp [rankX, rankA, Priority.inert, Priority.assignment]
      noBrace := by simp [hx, TokenKind.isScopeBracket]
      follow := by simp }

theorem computes_onLine {xc ac : Cell} {t : Tree} {ids : Nat} (ready : m.Ready)
    (hx : xc.token.kind = .name x) (ha : ac.token.kind = .operator op)
    (ranked : t.Ranked 0 0 Priority.logical) :
    (m.onLine ([xc, ac] ++ t.cells ++ []) ids).Computes := by
  refine ⟨ready.running, ready.unselected, ?_, by simp⟩
  have inner := Tree.isExpression ranked
  simpa [hx, ha, TokenKind.isExpression] using inner

/-- A statement that assigns a well-formed expression completes with the variables after the
assignment of its value, or fails if there is no value or no assignment. -/
theorem AssignsWith.cases (assigns : m.AssignsWith op x e) (isAssignment : op.isAssignment = true)
    (wellFormed : e.WellFormed) (shallow : e.depth ≤ Expr.maxDepth) :
    match m.assignmentOf op x e with
    | .ok r => m.CompletesWith r.2
    | .error _ => m.FailsUnchanged := by
  obtain ⟨xc, ac, t, tree, holds, hx, ha, rankX, rankA⟩ :=
    assigns.exists_holds isAssignment wellFormed shallow
  obtain ⟨n, stays, result⟩ := holds.trace
  have computes : m.Stays (fun m' => m'.Computes ∧ m'.symbols = m.symbols) n := by
    refine stays.mono ?_
    rintro m' ⟨t', ids, ranked, rfl⟩
    exact ⟨computes_onLine assigns.ready hx ha ranked, rfl⟩
  have fails {m' : Machine} {err : RuntimeError} (reached : m.after n = .ok m')
      (failed : m'.next = .error (.error err)) : m.FailsUnchanged := by
    obtain ⟨m₁, reached', here, same⟩ := computes n (Nat.le_refl n)
    obtain rfl : m' = m₁ := Except.ok.inj (reached.symm.trans reached')
    refine ⟨n, m', err, reducesTo_of_computes ?_ reached, here.incomplete, failed, ?_⟩
    · exact fun k lt => (computes k (Nat.le_of_lt lt)).imp fun _ => .imp_right And.left
    · rw [here.unchanged failed, same]
  unfold assignmentOf
  rcases result with ⟨c, ids, reached, settled⟩ | ⟨m', err, reached, failed, blames⟩
  · have ready : (m.onLine ([xc, ac] ++ [c]) ids).Ready := by
      apply assigns.ready.onLine
      rw [Line.refs, holds.cells]
      simpa using settled.member
    have lowC : c.token.priority ≤ ac.token.priority := by
      have := settled.idle
      rw [rankA]
      simp only [Priority.deferred, Priority.assignment] at this ⊢
      omega
    have step := next_assignment ready rfl hx ha isAssignment
      (by rw [rankX, rankA]; decide) lowC settled.operand
    have value := settled.value.trans (tree.value m)
    rw [valueOf_onLine] at step
    cases evaluated : e.eval m.valueOfName with
    | error cause =>
        rw [evaluated, Except.toOption_eq_none.2 ⟨_, rfl⟩, Except.toOption_eq_none] at value
        obtain ⟨stop, value⟩ := value
        obtain ⟨err, rfl⟩ := valueOf_error value
        exact fails reached (by rw [step, value, Except.bind_error])
    | ok v =>
        rw [evaluated, Except.toOption_eq_some.2 rfl, Except.toOption_eq_some] at value
        rw [value, Except.bind_ok, onLine_symbols] at step
        rw [Except.bind_ok]
        cases made : Action.assignment m.symbols op x none v with
        | error cause => exact fails reached (by rw [step, made]; rfl)
        | ok r =>
            rw [made] at step
            have last := (after_trans (b := 1) reached).trans ((after_one _).trans step)
            refine ⟨n + 1, _, reducesTo_of_computes ?_ last, .inr ⟨_, rfl, rfl⟩, rfl⟩
            exact fun k lt => (computes k (by omega)).imp fun _ => .imp_right And.left
  · have none : t.value? m = none := blames.value (by rw [tree.expr]; exact wellFormed.clashes)
    obtain ⟨cause, evaluated⟩ := Except.toOption_eq_none.1 ((tree.value m).symm.trans none)
    rw [evaluated]
    exact fails reached failed

/-!
## Compound and plain assignments
-/

/-- The expression `x op (e)`. -/
def spelledOut (base : Operator) (x : String) (e : Expr) : Expr :=
  .between base (.name x) (.group e)

theorem wellFormed_spelledOut (operation : op.operation? = some base) (wellFormed : e.WellFormed) :
    (spelledOut base x e).WellFormed := by
  cases op <;> simp only [Operator.operation?, Option.some.injEq, reduceCtorEq] at operation <;>
    subst operation <;> exact ⟨by decide, by decide, trivial, wellFormed, fun _ => rfl⟩

theorem assignmentOf_spelledOut (operation : op.operation? = some base)
    (bound : m.symbols.contains x = true) :
    m.assignmentOf .assign x (spelledOut base x e) = m.assignmentOf op x e := by
  obtain ⟨old, found⟩ := Option.isSome_iff_exists.1 bound
  have name : m.valueOfName x = .ok old.value := by simp [valueOfName, found]
  have look : m.symbols.lookup x = .ok old := by simp [Symbols.lookup, found]
  -- Both update the variable with the value of the operation, if there is one.
  have updates (w : Value) : Action.assigned m.symbols op x none w =
      Action.assigned m.symbols .assign x none w := rfl
  simp only [assignmentOf, spelledOut, Expr.eval, name, Except.bind_eq_bind, Except.bind_ok]
  cases e.eval m.valueOfName with
  | error cause => rfl
  | ok v =>
      simp only [Except.bind_ok, Action.assignment, Action.assignedValue, operation, look, updates]
      cases base.applyBetween old.value v <;> rfl

/-- The statements `x op= e` and `x = x op (e)` from the same variables and functions, with `x`
bound and `e` written as the grammar says: both complete and leave the same variables, or both fail
and leave them as they were. -/
theorem compound_is_sugar {m₁ m₂ : Machine} (compound : m₁.AssignsWith op x e)
    (plain : m₂.AssignsWith .assign x (spelledOut base x e)) (operation : op.operation? = some base)
    (symbols : m₂.symbols = m₁.symbols) (functions : m₂.functions = m₁.functions)
    (bound : m₁.symbols.contains x = true) (wellFormed : e.WellFormed) (shallow : e.depth ≤ 90) :
    (m₁.FailsUnchanged ∧ m₂.FailsUnchanged) ∨
      ∃ s, m₁.CompletesWith s ∧ m₂.CompletesWith s := by
  have isAssignment : op.isAssignment = true := by simp [Operator.isAssignment, operation]
  have deep : (spelledOut base x e).depth ≤ Expr.maxDepth := by
    simp only [spelledOut, Expr.depth, Expr.maxDepth]
    omega
  have outcome₁ := compound.cases isAssignment wellFormed (by simp only [Expr.maxDepth]; omega)
  have outcome₂ := plain.cases rfl (wellFormed_spelledOut operation wellFormed) deep
  have names : m₂.valueOfName = m₁.valueOfName := by
    funext y
    simp only [valueOfName, symbols, functions]
  have same : m₂.assignmentOf .assign x (spelledOut base x e) = m₁.assignmentOf op x e := by
    rw [← assignmentOf_spelledOut operation bound, assignmentOf, assignmentOf, names, symbols]
  rw [same] at outcome₂
  cases made : m₁.assignmentOf op x e with
  | error cause =>
      rw [made] at outcome₁ outcome₂
      exact .inl ⟨outcome₁, outcome₂⟩
  | ok r =>
      rw [made] at outcome₁ outcome₂
      exact .inr ⟨r.2, outcome₁, outcome₂⟩

def twoMore : Expr :=
  .between .add (.literal (.int 2)) (.name "y")

/-- The statements `y *= 2 + y` and `y = y * (2 + y)` where `y` is 1. -/
theorem compound_is_sugar_twoMore :
    twoMore.WellFormed ∧ twoMore.depth ≤ 90 ∧
      symbolsWithY.get? "y" = some ⟨.int 1, .int, .declaration⟩ ∧
      ∃ s, s.get? "y" = some ⟨.int 3, .int, .declaration⟩ ∧
        (onKinds symbolsWithY
          (.name "y" :: .operator .mulAssign :: twoMore.kinds)).CompletesWith s ∧
        (onKinds symbolsWithY
          (.name "y" :: .operator .assign ::
            (spelledOut .mul "y" twoMore).kinds)).CompletesWith s := by
  have wellFormed : twoMore.WellFormed := by decide
  have shallow : twoMore.depth ≤ 90 := by decide
  have compound : (onKinds symbolsWithY
      (.name "y" :: .operator .mulAssign :: twoMore.kinds)).AssignsWith .mulAssign "y" twoMore :=
    { ready := ⟨rfl, rfl, by decide⟩
      kinds := by decide
      fresh := by decide }
  have plain : (onKinds symbolsWithY
      (.name "y" :: .operator .assign :: (spelledOut .mul "y" twoMore).kinds)).AssignsWith
        .assign "y"
        (spelledOut .mul "y" twoMore) :=
    { ready := ⟨rfl, rfl, by decide⟩
      kinds := by decide
      fresh := by decide }
  have made : (onKinds symbolsWithY
      (.name "y" :: .operator .mulAssign :: twoMore.kinds)).assignmentOf .mulAssign "y" twoMore =
        .ok (.int 3, { bindings := [("y", ⟨.int 3, .int, .declaration⟩)] }) := by decide
  have completes := compound.cases rfl wellFormed (Nat.le_trans shallow (by decide))
  rw [made] at completes
  rcases compound_is_sugar compound plain rfl rfl rfl (by decide) wellFormed shallow with
    fails | ⟨s, both⟩
  · exact absurd fails.1 completes.not_fails
  · obtain rfl := completes.unique both.1
    exact ⟨wellFormed, shallow, rfl, _, rfl, both⟩

end Machine

end LineScript
