import LineScript.Proofs.Structured.Moves

/-!
# Simple statements

What a machine does on a line with an expression, on an assignment and on `system println`.

`Machine.Meets n Q r` says that a machine does what the result `r` of the recursive evaluator says:
if `r` is done, steps lead to a state with the property `Q`; if it is failed, steps lead to an
error; and if it is unfinished, the machine can make `n` steps and is not finished after them.
-/

namespace LineScript

namespace Machine

def Meets (m : Machine) (n : Nat) (Q : Ending → Env → Machine → Prop) : Result → Prop
  | .done ending env => ∃ k m', m.after k = .ok m' ∧ Q ending env m'
  | .failed => m.Breaks
  | .unfinished => ∃ k m', n ≤ k ∧ m.after k = .ok m' ∧ m'.finished = false

section

variable {m m' : Machine} {n : Nat} {Q Q' : Ending → Env → Machine → Prop} {r : Result}

theorem Meets.of_after {k : Nat} (first : m.after k = .ok m') (meets : m'.Meets n Q r) :
    m.Meets (n + k) Q r := by
  cases r with
  | done ending env =>
      obtain ⟨k', m'', reached, holds⟩ := meets
      exact ⟨k + k', m'', by rw [after_trans first, reached], holds⟩
  | failed => exact Breaks.of_after first meets
  | unfinished =>
      obtain ⟨k', m'', many, reached, running⟩ := meets
      exact ⟨k + k', m'', by omega, by rw [after_trans first, reached], running⟩

theorem Meets.fewer {n' : Nat} (meets : m.Meets n Q r) (le : n' ≤ n) : m.Meets n' Q r := by
  cases r with
  | done ending env => exact meets
  | failed => exact meets
  | unfinished =>
      obtain ⟨k, m', many, reached, running⟩ := meets
      exact ⟨k, m', by omega, reached, running⟩

theorem Meets.after {k : Nat} (first : m.after k = .ok m') (meets : m'.Meets n Q r) :
    m.Meets n Q r :=
  (meets.of_after first).fewer (Nat.le_add_right n k)

theorem Meets.next (first : m.next = .ok m') (meets : m'.Meets n Q r) : m.Meets n Q r :=
  meets.after (k := 1) (by rw [after_one, first])

theorem Meets.andThen {next : Env → Result} (meets : m.Meets n Q r)
    (normal : ∀ env m', r = .done .normal env → Q .normal env m' → m'.Meets n Q' (next env))
    (signal : ∀ s env m', r = .done (.signal s) env → Q (.signal s) env m' →
      Q' (.signal s) env m') :
    m.Meets n Q' (r.andThen next) := by
  cases r with
  | done ending env =>
      obtain ⟨k, m', reached, holds⟩ := meets
      cases ending with
      | normal => exact (normal env m' rfl holds).after reached
      | signal s => exact ⟨k, m', reached, signal s env m' rfl holds⟩
  | failed => exact meets
  | unfinished => exact meets

theorem Meets.further (meets : m.Meets n Q r)
    (steps : ∀ ending env m', r = .done ending env → Q ending env m' →
      ∃ k m'', m'.after k = .ok m'' ∧ Q' ending env m'') :
    m.Meets n Q' r := by
  cases r with
  | done ending env =>
      obtain ⟨k, m', reached, holds⟩ := meets
      obtain ⟨k', m'', reached', holds'⟩ := steps ending env m' rfl holds
      exact ⟨k + k', m'', by rw [after_trans reached, reached'], holds'⟩
  | failed => exact meets
  | unfinished => exact meets

theorem Meets.leave (meets : m.Meets n (fun ending env => Q ending env.pop) r) :
    m.Meets n Q r.leave := by
  cases r with
  | done ending env => exact meets
  | failed => exact meets
  | unfinished => exact meets

end

/-!
## Expressions
-/

section

variable {m : Machine} {p : Program} {env : Env} {loops : List Loop} {i : Nat}
  {purpose : Purpose} {pre cells post : List Cell}

structure Reduced (m : Machine) (x : Cell) (value : Except Cause Value) : Prop where
  operand : x.token.kind.isOperand = true
  idle : x.token.priority < Priority.deferred
  value : (m.valueOf x.token).toOption = value.toOption

theorem Reduced.inert {x : Cell} {value : Except Cause Value} (reduced : m.Reduced x value) :
    x.token.kind.isInert = true := by
  have operand := reduced.operand
  cases kind : x.token.kind <;> simp_all [TokenKind.isOperand, TokenKind.isInert]

theorem Reduced.cases {x : Cell} {value : Except Cause Value} (reduced : m.Reduced x value) :
    (∃ v, value = .ok v ∧ m.valueOf x.token = .ok v) ∨
      ∃ cause e, value = .error cause ∧ m.valueOf x.token = .error (.error e) := by
  have same := reduced.value
  cases value with
  | ok v => exact .inl ⟨v, rfl, Except.toOption_eq_some.1 same⟩
  | error cause =>
      obtain ⟨stop, failed⟩ := Except.toOption_eq_none.1 same
      obtain ⟨e, rfl⟩ := valueOf_error failed
      exact .inr ⟨cause, e, rfl, failed⟩

theorem Reduced.test {x : Cell} {e : Expr} (reduced : m.Reduced x (e.eval env.look)) :
    (∃ b, env.test e = .ok b ∧ m.valueOf x.token = .ok (.bool b)) ∨
      (∃ cause v, env.test e = .error cause ∧ m.valueOf x.token = .ok v ∧ ∀ b, v ≠ .bool b) ∨
      ∃ cause err, env.test e = .error cause ∧ m.valueOf x.token = .error (.error err) := by
  rw [Env.test_eq]
  rcases reduced.cases with ⟨v, evaluated, value⟩ | ⟨cause, err, evaluated, value⟩
  · rw [evaluated]
    cases v with
    | bool b => exact .inl ⟨b, rfl, value⟩
    | _ => exact .inr (.inl ⟨_, _, rfl, value, by simp⟩)
  · rw [evaluated]
    exact .inr (.inr ⟨cause, err, rfl, value⟩)

/-- An expression on a line comes to an operand of its value, or the run fails and the expression
has no value. -/
theorem evaluates {e : Expr} (legal : e.Legal) (shows : m.Shows p env loops)
    (pre post : List Cell) (works : m.WorksOn i (pre ++ cells ++ post) purpose)
    (kinds : cells.map (fun c => c.token.kind) = e.kinds) (fresh : ∀ c ∈ cells, c.Fresh)
    (outside : ∀ c ∈ pre ++ post, c.token.priority ≤ 0)
    (noBrace : ∀ c, pre.head? = some c → c.token.kind.isScopeBracket = false)
    (follow : ∀ d, post.head? = some d → d.token.kind ≠ .operator .pow) :
    (∃ cause, e.eval env.look = .error cause ∧ m.Breaks) ∨
      ∃ k m' x, m.after k = .ok m' ∧ m'.Shows p env loops ∧
        m'.WorksOn i (pre ++ x :: post) purpose ∧ m'.Reduced x (e.eval env.look) := by
  have shallow := legal.shallow
  obtain ⟨t, rfl, tree⟩ := Expr.exists_tree kinds fresh legal.wellFormed.composed
    (by omega : e.depth + 0 ≤ Expr.maxDepth)
  have first : ∀ c, (pre ++ t.cells ++ post).head? = some c →
      c.token.kind.isScopeBracket = false := by
    intro c hc
    cases pre with
    | cons d pre => exact noBrace c hc
    | nil =>
        cases tcells : t.cells with
        | nil => exact absurd tcells t.cells_ne_nil
        | cons d ds =>
            rw [tcells] at hc
            cases hc
            exact Tree.noBrace tree.ranked c (by simp [tcells])
  have holds : m.Holds 0 pre t post :=
    { ready := works.ready first
      cells := works.holds
      ranked := tree.ranked
      outside
      noBrace
      follow }
  have value : t.value? m = (e.eval env.look).toOption := by
    rw [tree.value m, shows.valueOfName]
  obtain ⟨n, -, ⟨x, ids, reached, settled⟩ | ⟨m', err, reached, failed, blames⟩⟩ := holds.after
  · have fewer : ((pre ++ x :: post).map Cell.ref).Sublist
        ((pre ++ t.cells ++ post).map Cell.ref) := by
      simp only [List.map_append, List.map_cons, List.append_assoc]
      refine List.Sublist.append_left ?_ _
      exact (List.singleton_sublist.2 settled.member).append_right _
    exact .inr ⟨n, _, x, reached, shows.onLine _ _, works.onLine first fewer ids,
      ⟨settled.operand, settled.idle, settled.value.trans value⟩⟩
  · have none := blames.value (tree.expr ▸ legal.wellFormed.clashes)
    obtain ⟨cause, evaluated⟩ := Except.toOption_eq_none.1 (value.symm.trans none)
    exact .inl ⟨cause, evaluated, n, m', err, reached, failed⟩

end

end Machine

/-!
## Assignments
-/

/-- The meaning of an assignment is what the operator does to the variables. -/
theorem Assignment.exec_eq {a : Assignment} (legal : a.Legal) (env : Env) :
    a.exec env = .ofExcept ((a.value.eval env.look).bind fun v =>
      (Action.assignment env.symbols a.op a.name a.declared v).map fun r =>
        { env with symbols := r.2 }) := by
  have assigned : ∀ v, a.assigned env.symbols v =
      (Action.assignment env.symbols a.op a.name a.declared v).map Prod.snd := by
    intro v
    have direct : ∀ (symbols : Symbols) (x : String) (declared : Option ValueType),
        Action.assignment symbols .assign x declared v =
          (Action.assigned symbols .assign x declared v).map fun symbols => (v, symbols) := by
      intro symbols x declared
      rfl
    cases a with
    | declare t x e =>
        simp only [Assignment.assigned, op, name, declared, direct, Action.assigned]
        cases env.symbols.add x t v .declaration <;> rfl
    | set x e =>
        simp only [Assignment.assigned, op, name, declared, direct, Action.assigned]
        split
        · cases env.symbols.update x v <;> rfl
        · cases env.symbols.add x v.type v .declaration <;> rfl
    | change op x e =>
        simp only [Assignment.assigned, Assignment.op, name, declared, Action.assignment,
          Action.assignedValue, Action.assigned, Except.bind_eq_bind]
        cases operation : op.operation? with
        | none =>
            have compound : op.operation?.isSome = true := legal.formed
            simp [operation] at compound
        | some base =>
            simp only
            cases look : env.symbols.lookup x with
            | error cause => rfl
            | ok old =>
                have bound : env.symbols.contains x = true := by
                  rw [Symbols.lookup] at look
                  rw [Symbols.contains]
                  cases found : env.symbols.get? x with
                  | none => simp [found] at look
                  | some v => rfl
                simp only [Except.bind_ok, bound, if_true]
                cases base.applyBetween old.value v with
                | error cause => rfl
                | ok w =>
                    simp only [Except.bind_ok]
                    cases env.symbols.update x w <;> rfl
  rw [Assignment.exec]
  simp only [Except.bind_eq_bind, assigned]
  cases a.value.eval env.look with
  | error cause => rfl
  | ok v =>
      simp only [Except.bind_ok]
      cases Action.assignment env.symbols a.op a.name a.declared v <;> rfl

namespace Machine

variable {m : Machine} {p : Program} {env : Env} {loops : List Loop} {i : Nat}
  {purpose : Purpose} {cells : List Cell}

theorem assignment_cells {a : Assignment} (kinds : cells.map (fun c => c.token.kind) = a.kinds) :
    ∃ types xc oc rest, cells = types ++ xc :: oc :: rest ∧ xc.token.kind = .name a.name ∧
      oc.token.kind = .operator a.op ∧
      types.map (fun c => c.token.kind) = a.declared.toList.map .type ∧
      rest.map (fun c => c.token.kind) = a.value.kinds := by
  obtain ⟨types, tail, rfl, htypes, htail⟩ := List.map_eq_append_iff.1 kinds
  obtain ⟨xc, tail, rfl, hx, htail⟩ := List.map_eq_cons_iff.1 htail
  obtain ⟨oc, rest, rfl, ho, hrest⟩ := List.map_eq_cons_iff.1 htail
  exact ⟨types, xc, oc, rest, rfl, hx, ho, htypes, hrest⟩

theorem assignmentTarget?_eq {a : Assignment} {types : List Cell} {xc : Cell}
    (name : xc.token.kind = .name a.name)
    (htypes : types.map (fun c => c.token.kind) = a.declared.toList.map .type) :
    Action.assignmentTarget? (xc :: types.reverse) = some (a.name, a.declared, []) := by
  cases declared : a.declared with
  | none =>
      rw [declared] at htypes
      obtain rfl := List.map_eq_nil_iff.1 htypes
      simp [Action.assignmentTarget?, name]
  | some t =>
      rw [declared] at htypes
      obtain ⟨tc, rfl, ht⟩ := List.map_eq_singleton_iff.1 htypes
      simp [Action.assignmentTarget?, name, ht]

def Assigned (p : Program) (i : Nat) (purpose : Purpose) (loops : List Loop) (ending : Ending)
    (env : Env) (m : Machine) : Prop :=
  ending = .normal ∧ m.Shows p env loops ∧
    ∃ x v, m.WorksOn i [x] purpose ∧ x.token.kind = .literal v

/-- A line with an assignment does what the assignment means. -/
theorem assigns_meets {a : Assignment} (legal : a.Legal) (shows : m.Shows p env loops)
    (works : m.WorksOn i cells purpose) (kinds : cells.map (fun c => c.token.kind) = a.kinds)
    (fresh : ∀ c ∈ cells, c.Fresh) (n : Nat) :
    m.Meets n (Assigned p i purpose loops) (a.exec env) := by
  obtain ⟨types, xc, oc, rest, rfl, hx, ho, htypes, hrest⟩ := assignment_cells kinds
  have assignment : a.op.isAssignment = true := by
    rcases legal.op_cases with h | h <;> simp [Operator.isAssignment, h]
  have rankO : oc.token.priority = Priority.assignment := by
    rw [(fresh oc (by simp)).1, ho]
    cases op : a.op <;> simp_all [TokenKind.basePriority, Operator.priority, Operator.isAssignment,
      Operator.operation?]
  have rankX : xc.token.priority = Priority.inert := by
    rw [(fresh xc (by simp)).1, hx]
    rfl
  have typed : ∀ c ∈ types, c.token.priority = Priority.declaration ∧
      c.token.kind.isScopeBracket = false := by
    intro c hc
    have kind : c.token.kind ∈ a.declared.toList.map .type :=
      htypes ▸ List.mem_map.2 ⟨c, hc, rfl⟩
    obtain ⟨t, -, ht⟩ := List.mem_map.1 kind
    rw [(fresh c (by simp [hc])).1, ← ht]
    exact ⟨rfl, rfl⟩
  have outside : ∀ c ∈ types ++ [xc, oc], c.token.priority ≤ 0 := by
    intro c hc
    simp only [List.mem_append, List.mem_cons, List.mem_nil_iff, or_false] at hc
    rcases hc with hc | rfl | rfl
    · rw [(typed c hc).1]
      decide
    · rw [rankX]
      decide
    · rw [rankO]
      decide
  have noBrace : ∀ c, (types ++ [xc, oc]).head? = some c →
      c.token.kind.isScopeBracket = false := by
    intro c hc
    cases types with
    | nil =>
        cases hc
        rw [hx]
        rfl
    | cons t types =>
        cases hc
        exact (typed c (by simp)).2
  have split : types ++ xc :: oc :: rest = types ++ [xc, oc] ++ rest ++ [] := by simp
  rw [Assignment.exec_eq legal]
  rcases evaluates legal.value shows _ _ (split ▸ works) hrest (fun c hc => fresh c (by simp [hc]))
    (by simpa using outside) noBrace (by simp) with
    ⟨cause, failed, breaks⟩ | ⟨k, m', x, reached, shows', works', reduced⟩
  · rw [failed]
    exact breaks
  · -- The value is reduced, so the assignment is what acts.
    have head' : ∀ c, (types ++ [xc, oc] ++ [x]).head? = some c →
        c.token.kind.isScopeBracket = false := by
      intro c hc
      refine noBrace c ?_
      rw [← hc]
      cases types <;> rfl
    have low := reduced.idle
    have step := next_chosen (f := ⟨xc :: types.reverse, oc, [x]⟩) (works'.ready head')
      (by rw [works'.holds]; simp [Focus.cells])
      (by rw [works'.holds]; exact head')
      (by
        refine ⟨?_, ?_⟩
        · intro c hc
          rcases List.mem_cons.1 hc with rfl | hc
          · rw [rankX, rankO]
            decide
          · rw [(typed c (List.mem_reverse.1 hc)).1, rankO]
            decide
        · intro c hc
          obtain rfl := List.mem_singleton.1 hc
          rw [rankO]
          simp only [Priority.deferred, Priority.assignment] at low ⊢
          omega)
    rw [Action.outcome_act_assign (f := ⟨xc :: types.reverse, oc, [x]⟩)
      (works'.ready head').distinct (by rw [works'.holds]; simp [Focus.cells]) ho assignment
      (assignmentTarget?_eq hx htypes) rfl reduced.operand, shows'.symbols] at step
    refine Meets.after reached ?_
    rcases reduced.cases with ⟨v, evaluated, value⟩ | ⟨cause, e, evaluated, value⟩
    · rw [evaluated, Except.bind_ok]
      rw [value, Except.bind_ok] at step
      cases result : Action.assignment env.symbols a.op a.name a.declared v with
      | error cause =>
          rw [result] at step
          exact Breaks.of_next step
      | ok r =>
          rw [result] at step
          refine ⟨1, _, (after_one m').trans step, rfl, ?_,
            { oc with token := .literal r.1 m'.nextId oc.token.line }, r.1, ?_, rfl⟩
          · exact ⟨shows'.program, rfl, shows'.sink, shows'.loops, shows'.calls, shows'.functions⟩
          · refine ⟨works'.running, works'.index, rfl, works'.aim, by simp, ?_⟩
            intro r h
            have none := works'.unselected head'
            rw [onLine_selected] at h
            simp only [none] at h
            cases h
    · rw [value] at step
      rw [evaluated]
      exact Breaks.of_next step

/-!
## Output
-/

theorem Shows.valueOf_operand (shows : m.Shows p env loops) {t : Token} {o : Operand}
    (kind : t.kind = o.kind) :
    t.kind.isOperand = true ∧ (m.valueOf t).toOption = (o.value env).toOption := by
  cases o with
  | literal v =>
      simp only [kind, Operand.kind, TokenKind.isOperand, valueOf, Operand.value]
      exact ⟨trivial, rfl⟩
  | name s =>
      refine ⟨by simp [kind, Operand.kind, TokenKind.isOperand], ?_⟩
      rw [toOption_valueOf_name (s := s) kind, shows.valueOfName]
      rfl

/-- The arguments of a line are the values of the operands. -/
theorem builtinArguments_eq (shows : m.Shows p env loops) {operands : List Operand}
    (kinds : cells.map (fun c => c.token.kind) = operandKinds operands) :
    match operandValues env operands with
    | .ok vs => Action.builtinArguments m cells = .ok (vs, [])
    | .error _ => ∃ e, Action.builtinArguments m cells = .error (.error e) := by
  have operand : ∀ (c : Cell) (rest : List Cell) (o : Operand), c.token.kind = o.kind →
      (∃ v, o.value env = .ok v ∧ Action.builtinArguments m (c :: rest) =
        (Action.builtinArguments m rest).map fun r => (v :: r.1, r.2)) ∨
      ∃ cause e, o.value env = .error cause ∧
        Action.builtinArguments m (c :: rest) = .error (.error e) := by
    intro c rest o kind
    obtain ⟨isOperand, same⟩ := shows.valueOf_operand kind
    have noComma : c.token.kind ≠ .comma := by
      intro h
      simp [h, TokenKind.isOperand] at isOperand
    cases value : o.value env with
    | ok v =>
        rw [value] at same
        have found : m.valueOf c.token = .ok v := Except.toOption_eq_some.1 same
        refine .inl ⟨v, rfl, ?_⟩
        simp only [Action.builtinArguments, noComma, isOperand, if_false, if_true, found]
        cases Action.builtinArguments m rest <;> rfl
    | error cause =>
        rw [value] at same
        obtain ⟨stop, failed⟩ := Except.toOption_eq_none.1 same
        obtain ⟨e, rfl⟩ := valueOf_error failed
        refine .inr ⟨cause, e, rfl, ?_⟩
        simp [Action.builtinArguments, noComma, isOperand, failed]
  fun_induction operandKinds operands generalizing cells with
  | case1 =>
      obtain rfl := List.map_eq_nil_iff.1 kinds
      rfl
  | case2 o =>
      obtain ⟨c, rfl, kind⟩ := List.map_eq_singleton_iff.1 kinds
      rcases operand c [] o kind with ⟨v, value, args⟩ | ⟨cause, e, value, args⟩
      · rw [operandValues, value, args]
        rfl
      · simp [operandValues, value, args]
  | case3 o o' operands ih =>
      obtain ⟨c, tail, rfl, kind, htail⟩ := List.map_eq_cons_iff.1 kinds
      obtain ⟨comma, rest, rfl, hcomma, hrest⟩ := List.map_eq_cons_iff.1 htail
      have skip : Action.builtinArguments m (comma :: rest) = Action.builtinArguments m rest := by
        simp [Action.builtinArguments, hcomma]
      have later := ih hrest
      rcases operand c (comma :: rest) o kind with ⟨v, value, args⟩ | ⟨cause, e, value, args⟩
      · rw [operandValues, value, args, skip]
        cases values : operandValues env (o' :: operands) with
        | ok vs =>
            rw [values] at later
            simp [later]
        | error cause =>
            rw [values] at later
            obtain ⟨e, failed⟩ := later
            exact ⟨e, by rw [failed]; rfl⟩
      · rw [operandValues, value]
        exact ⟨e, args⟩

theorem printTo_eq {sink : Sink} (reliable : sink.writer.Reliable) (ending : String)
    (args : List Value) :
    Builtin.printTo sink args ending =
      ({ sink with text := sink.text ++ " ".intercalate (args.map Value.text) ++ ending },
        .ok none) := by
  have first := Sink.write_of_reliable reliable (" ".intercalate (args.map Value.text))
  have last := Sink.write_of_reliable
    (s := { sink with text := sink.text ++ " ".intercalate (args.map Value.text) }) reliable ending
  simp only [Builtin.printTo, first, last]

def Printed (p : Program) (i : Nat) (loops : List Loop) (ending : Ending) (env : Env)
    (m : Machine) : Prop :=
  ending = .normal ∧ m.Shows p env loops ∧ m.WorksOn i [] .statement

theorem basePriority_operandKinds (operands : List Operand) :
    ∀ k ∈ operandKinds operands, k.basePriority = Priority.inert := by
  have operand : ∀ o : Operand, o.kind.basePriority = Priority.inert := by
    intro o
    cases o <;> rfl
  fun_induction operandKinds operands with
  | case1 => simp
  | case2 o => simpa using operand o
  | case3 o o' operands ih =>
      intro k member
      simp only [List.mem_cons] at member
      rcases member with rfl | rfl | member
      · exact operand o
      · rfl
      · exact ih k member

/-- A `system println` that outranks what follows it prints its arguments, or fails with them. -/
theorem next_println {sc pc : Cell} {rest : List Cell}
    (works : m.WorksOn i (sc :: pc :: rest) purpose) (hs : sc.token.kind = .keyword .system)
    (hp : pc.token.kind = .name "println")
    (low : ∀ c ∈ pc :: rest, c.token.priority ≤ sc.token.priority) {text : String}
    (sink : m.sink.Holds text) :
    m.next = (Action.builtinArguments m rest).map fun (vs, _) =>
      { m with sink := { m.sink with
          text := text ++ " ".intercalate (vs.map Value.text) ++ "\n" } }.onLine [] 0 := by
  have head : ∀ c, (sc :: pc :: rest).head? = some c → c.token.kind.isScopeBracket = false := by
    intro c hc
    cases hc
    rw [hs]
    rfl
  rw [next_chosen (f := ⟨[], sc, pc :: rest⟩) (works.ready head) (by rw [works.holds]; rfl)
    (by rw [works.holds]; exact head) ⟨by simp, low⟩,
    Action.outcome_act (by simp [hs, TokenKind.isInert])]
  simp only [Action.perform, hs, Action.applyKeyword, Action.callBuiltin, hp,
    Action.builtinName?, Action.outcome_bind, Action.outcome_get, Except.bind_ok,
    Action.outcome_ofExcept]
  cases Action.builtinArguments m rest with
  | error stop => rfl
  | ok result =>
      obtain ⟨vs, rest⟩ := result
      have printed : Builtin.run "println" m.properties vs m.sink =
          ({ m.sink with text := text ++ " ".intercalate (vs.map Value.text) ++ "\n" },
            .ok none) := by
        rw [← sink.text]
        exact printTo_eq sink.reliable _ _
      simp only [Except.map_ok_eq, Except.bind_ok, printed, Action.outcome_modify,
        Action.outcome_ofCause, Except.mapError_ok_eq, Action.outcome_emit]
      rfl

theorem next_printed {sc pc : Cell} {rest : List Cell} {args : List Value × List Cell}
    (shows : m.Shows p env loops) (works : m.WorksOn i (sc :: pc :: rest) .statement)
    (hs : sc.token.kind = .keyword .system) (hp : pc.token.kind = .name "println")
    (low : ∀ c ∈ pc :: rest, c.token.priority ≤ sc.token.priority)
    (read : Action.builtinArguments m rest = .ok args) :
    ∃ m', m.next = .ok m' ∧ Printed p i loops .normal
      { env with output := env.output ++ " ".intercalate (args.1.map Value.text) ++ "\n" } m' := by
  have step := next_println works hs hp low shows.sink
  rw [read] at step
  refine ⟨_, step, rfl, ?_, ?_⟩
  · exact ⟨shows.program, shows.symbols, ⟨rfl, shows.sink.reliable⟩, shows.loops, shows.calls,
      shows.functions⟩
  · refine ⟨works.running, works.index, rfl, works.aim, .nil, ?_⟩
    intro r h
    have none := works.unselected (by simp [hs, TokenKind.isScopeBracket])
    rw [onLine_selected] at h
    simp only [none] at h
    cases h

theorem println_meets {operands : List Operand} (shows : m.Shows p env loops)
    (works : m.WorksOn i cells .statement)
    (kinds : cells.map (fun c => c.token.kind) =
      .keyword .system :: .name "println" :: operandKinds operands)
    (fresh : ∀ c ∈ cells, c.Fresh) (n : Nat) :
    m.Meets n (Printed p i loops) (env.println operands) := by
  obtain ⟨sc, tail, rfl, hs, htail⟩ := List.map_eq_cons_iff.1 kinds
  obtain ⟨pc, rest, rfl, hp, hrest⟩ := List.map_eq_cons_iff.1 htail
  have low : ∀ c ∈ pc :: rest, c.token.priority ≤ sc.token.priority := by
    intro c hc
    have rank : c.token.priority = Priority.inert := by
      rw [(fresh c (List.mem_cons_of_mem _ hc)).1]
      rcases List.mem_cons.1 hc with rfl | hc
      · rw [hp]
        rfl
      · exact basePriority_operandKinds operands _ (hrest ▸ List.mem_map.2 ⟨c, hc, rfl⟩)
    rw [rank, (fresh sc (by simp)).1, hs]
    decide
  have args := builtinArguments_eq shows hrest
  rw [Env.println]
  cases values : operandValues env operands with
  | error cause =>
      rw [values] at args
      obtain ⟨e, failed⟩ := args
      have step := next_println works hs hp low shows.sink
      rw [failed] at step
      exact Breaks.of_next step
  | ok vs =>
      rw [values] at args
      obtain ⟨m', step, printed⟩ := next_printed shows works hs hp low args
      exact ⟨1, m', (after_one m).trans step, printed⟩

end Machine

end LineScript
