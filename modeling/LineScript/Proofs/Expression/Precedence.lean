import LineScript.Proofs.Expression.Reduction

/-!
# Reduction by priorities follows the grammar

The tokens of an expression, with the priorities that their kinds have, make up a ranked tree of the
same value (`Expr.exists_tree`).  So the statement `x = e` with a well-formed `e` binds `x` to what
the recursive evaluator makes of `e`, and fails where the evaluator fails.
-/

namespace LineScript

namespace Except

theorem toOption_bind {ε α β : Type} (x : Except ε α) (f : α → Except ε β) :
    (x.bind f).toOption = x.toOption.bind fun a => (f a).toOption := by
  cases x <;> rfl

theorem toOption_mapError {ε ε' α : Type} (x : Except ε α) (f : ε → ε') :
    (x.mapError f).toOption = x.toOption := by
  cases x <;> rfl

theorem toOption_eq_some {ε α : Type} {x : Except ε α} {a : α} :
    x.toOption = some a ↔ x = .ok a := by
  cases x <;> simp [Except.toOption]

theorem toOption_eq_none {ε α : Type} {x : Except ε α} :
    x.toOption = none ↔ ∃ e, x = .error e := by
  cases x <;> simp [Except.toOption]

end Except

theorem Machine.toOption_valueOf_name {m : Machine} {t : Token} {s : String}
    (kind : t.kind = .name s) : (m.valueOf t).toOption = (m.valueOfName s).toOption := by
  simp only [Machine.valueOf, kind, Except.toOption_mapError]

theorem Tree.value?_eq {base : Int} {room : Nat} {floor : Int} {t : Tree}
    (ranked : t.Ranked base room floor) (m : Machine) :
    t.value? m = (t.expr.eval m.valueOfName).toOption := by
  induction t generalizing base room floor with
  | leaf c =>
      have operand := ranked.1
      cases kind : c.token.kind with
      | literal v =>
          simp [value?, expr, TokenKind.operand, Expr.eval, Machine.valueOf, kind, Except.toOption]
      | name s =>
          simp only [value?, expr, kind, TokenKind.operand, Expr.eval]
          exact Machine.toOption_valueOf_name kind
      | _ => simp [kind, TokenKind.isOperand] at operand
  | group o t c ih =>
      obtain ⟨-, -, -, -, reached, unreached⟩ := ranked
      cases expanded : o.token.expanded with
      | true => exact ih (reached expanded)
      | false => exact ih (unreached expanded).2
  | before op waits c t ih =>
      simp [value?, expr, Expr.eval, ih ranked.2.2.1, Except.toOption_bind]
  | between op l c r ihl ihr =>
      simp [value?, expr, Expr.eval, ihl ranked.2.2.2.2.1, ihr ranked.2.2.2.2.2.1,
        Except.toOption_bind]

namespace Expr

/-- The tree of an expression: the same grammar over the cells of a line. -/
structure TreeOf (e : Expr) (room : Nat) (floor : Int) (t : Tree) : Prop where
  ranked : t.Ranked 0 room floor
  expr : t.expr = e
  fresh : t.isWaiting = false

theorem TreeOf.value {e : Expr} {room : Nat} {floor : Int} {t : Tree} (tree : e.TreeOf room floor t)
    (m : Machine) : t.value? m = (e.eval m.valueOfName).toOption := by
  rw [Tree.value?_eq tree.ranked, tree.expr]

private theorem treeOf_leaf {e : Expr} {room : Nat} {floor : Int} {c : Cell} (fresh : c.Fresh)
    (small : room ≤ maxDepth) (operand : c.token.kind.isOperand = true)
    (same : c.token.kind.operand = e) : e.TreeOf room floor (.leaf c) := by
  refine ⟨⟨operand, ?_⟩, same, rfl⟩
  have base : c.token.kind.basePriority = Priority.inert := by
    cases kind : c.token.kind <;> simp_all [TokenKind.isOperand, TokenKind.basePriority]
  simp only [Tree.Idle, fresh.1, base, Priority.inert, Priority.boost, maxDepth] at small ⊢
  omega

/-- The fresh cells of an expression that is written as the grammar says form its tree. -/
theorem exists_tree {e : Expr} {cells : List Cell} {room : Nat} {floor : Int}
    (kinds : cells.map (fun c => c.token.kind) = e.kinds) (fresh : ∀ c ∈ cells, c.Fresh)
    (composed : e.Composed floor) (deep : e.depth + room ≤ maxDepth) :
    ∃ t : Tree, t.cells = cells ∧ e.TreeOf room floor t := by
  induction e generalizing cells room floor with
  | literal v =>
      obtain ⟨c, rfl, kind⟩ := List.map_eq_singleton_iff.1 kinds
      exact ⟨.leaf c, rfl, treeOf_leaf (fresh c (by simp)) (by omega)
        (by simp [kind, TokenKind.isOperand]) (by rw [kind]; rfl)⟩
  | name s =>
      obtain ⟨c, rfl, kind⟩ := List.map_eq_singleton_iff.1 kinds
      exact ⟨.leaf c, rfl, treeOf_leaf (fresh c (by simp)) (by omega)
        (by simp [kind, TokenKind.isOperand]) (by rw [kind]; rfl)⟩
  | group e ih =>
      simp only [Expr.kinds, List.cons_append] at kinds
      obtain ⟨o, rest, rfl, ho, hrest⟩ := List.map_eq_cons_iff.1 kinds
      obtain ⟨inner, last, rfl, hinner, hlast⟩ := List.map_eq_append_iff.1 hrest
      obtain ⟨c, rfl, hc⟩ := List.map_eq_singleton_iff.1 hlast
      simp only [depth] at deep
      obtain ⟨t, hcells, tree⟩ := ih hinner (fun c hc => fresh c (by simp [hc])) composed
        (by omega : e.depth + (room + 1) ≤ maxDepth)
      refine ⟨.group o t c, by simp [Tree.cells, hcells], ⟨⟨ho, ?_, hc, ?_, ?_, ?_⟩, ?_, rfl⟩⟩
      · rw [(fresh o (by simp)).1, ho]
        rfl
      · simp only [Tree.Idle, (fresh c (by simp)).1, hc, TokenKind.basePriority, Priority.inert,
          Priority.boost, maxDepth] at deep ⊢
        omega
      · simp [(fresh o (by simp)).2]
      · exact fun _ => ⟨by omega, tree.ranked⟩
      · rw [Tree.expr, tree.expr]
  | before op e ih =>
      simp only [Expr.kinds] at kinds
      obtain ⟨c, rest, rfl, hc, hrest⟩ := List.map_eq_cons_iff.1 kinds
      obtain ⟨unary, operand, power⟩ := composed
      obtain ⟨t, hcells, tree⟩ := ih hrest (fun c hc => fresh c (by simp [hc])) operand deep
      refine ⟨.before op false c t, by simp [Tree.cells, hcells],
        ⟨⟨unary, hc, tree.ranked, by rwa [tree.expr], ?_⟩, by rw [Tree.expr, tree.expr], rfl⟩⟩
      simp only [Bool.false_eq_true, if_false]
      rw [(fresh c (by simp)).1, hc]
      cases op <;> simp_all [Operator.isUnary, TokenKind.basePriority, Operator.priority]
  | between op l r ihl ihr =>
      simp only [Expr.kinds] at kinds
      obtain ⟨lcells, rest, rfl, hl, hrest⟩ := List.map_eq_append_iff.1 kinds
      obtain ⟨c, rcells, rfl, hc, hr⟩ := List.map_eq_cons_iff.1 hrest
      obtain ⟨binary, low, left, right, ends⟩ := composed
      simp only [depth] at deep
      obtain ⟨tl, hlcells, treeL⟩ := ihl hl (fun c hc => fresh c (by simp [hc])) left
        (by omega : l.depth + room ≤ maxDepth)
      obtain ⟨tr, hrcells, treeR⟩ := ihr hr (fun c hc => fresh c (by simp [hc])) right
        (by omega : r.depth + room ≤ maxDepth)
      refine ⟨.between op tl c tr, by simp [Tree.cells, hlcells, hrcells],
        ⟨⟨binary, hc, ?_, low, treeL.ranked, treeR.ranked, by rwa [treeL.expr], ?_⟩, ?_, rfl⟩⟩
      · rw [(fresh c (by simp)).1, hc]
        simp [TokenKind.basePriority]
      · simp [treeR.fresh]
      · rw [Tree.expr, treeL.expr, treeR.expr]

end Expr

/-!
## Statements of the form `x = e`
-/

namespace Machine

def extended (symbols : Symbols) (x : String) (v : Value) : Symbols :=
  { symbols with
    bindings := symbols.bindings ++ [(x, { value := v, type := v.type, origin := .declaration })] }

/-- The variables stay as they are until a step declares `x` with the value `v`. -/
def Binds (m : Machine) (x : String) (v : Value) : Prop :=
  ∃ n m', m.after n = .ok m' ∧ m'.symbols = extended m.symbols x v ∧
    ∀ k < n, ∀ m'', m.after k = .ok m'' → m''.symbols = m.symbols

/-- The variables stay as they are until a step meets a token that cannot be reduced. -/
def Sticks (m : Machine) : Prop :=
  ∃ n m' e token, m.after n = .ok m' ∧ m'.next = .error (.error e) ∧
    e.cause = .cannotReduce token ∧ ∀ k ≤ n, ∀ m'', m.after k = .ok m'' → m''.symbols = m.symbols

/-- The variables stay as they are until a step fails with an error of the script. -/
def Fails (m : Machine) : Prop :=
  ∃ n m' e, m.after n = .ok m' ∧ m'.next = .error (.error e) ∧
    ∀ k ≤ n, ∀ m'', m.after k = .ok m'' → m''.symbols = m.symbols

theorem Stays.keeps {m : Machine} {n : Nat} (stays : m.Stays (fun s => s.symbols = m.symbols) n) :
    ∀ k ≤ n, ∀ m', m.after k = .ok m' → m'.symbols = m.symbols := by
  intro k hk m' reached
  obtain ⟨s, reached', same⟩ := stays k hk
  rw [reached] at reached'
  cases reached'
  exact same

theorem extended_ne (symbols : Symbols) (x : String) (v : Value) :
    extended symbols x v ≠ symbols := by
  intro same
  have := congrArg (fun s : Symbols => s.bindings.length) same
  simp [extended] at this

theorem extended_injective {symbols : Symbols} {x : String} {v w : Value}
    (same : extended symbols x v = extended symbols x w) : v = w := by
  simp [extended] at same
  exact same.1

theorem Sticks.fails {m : Machine} (sticks : m.Sticks) : m.Fails := by
  obtain ⟨n, m', e, -, reached, failed, -, unchanged⟩ := sticks
  exact ⟨n, m', e, reached, failed, unchanged⟩

theorem Binds.not_fails {m : Machine} {x : String} {v : Value}
    (binds : m.Binds x v) : ¬ m.Fails := by
  obtain ⟨n, m', reached, declares, -⟩ := binds
  rintro ⟨n', m'', e, reached', failed, unchanged⟩
  by_cases early : n ≤ n'
  · exact extended_ne _ _ _ (declares.symm.trans (unchanged n early m' reached))
  · obtain ⟨d, rfl⟩ : ∃ d, n = n' + (d + 1) := ⟨n - n' - 1, by omega⟩
    rw [after_trans reached', after_succ, failed] at reached
    simp at reached

theorem Binds.unique {m : Machine} {x : String} {v w : Value} (first : m.Binds x v)
    (second : m.Binds x w) : v = w := by
  obtain ⟨n, m', reached, declares, unchanged⟩ := first
  obtain ⟨n', m'', reached', declares', unchanged'⟩ := second
  rcases Nat.lt_trichotomy n n' with early | rfl | late
  · exact absurd (declares.symm.trans (unchanged' n early m' reached)) (extended_ne _ _ _)
  · rw [reached] at reached'
    cases reached'
    exact extended_injective (declares.symm.trans declares')
  · exact absurd (declares'.symm.trans (unchanged n' late m'' reached')) (extended_ne _ _ _)

/-- The working line is the fresh statement `x = e`. -/
structure Assigns (m : Machine) (x : String) (e : Expr) : Prop where
  ready : m.Ready
  kinds : m.work.line.cells.map (fun c => c.token.kind) =
    .name x :: .operator .assign :: e.kinds
  fresh : ∀ c ∈ m.work.line.cells, c.Fresh

theorem next_assign {m : Machine} {x : String} {xc ac c : Cell} (ready : m.Ready)
    (cells : m.work.line.cells = [xc, ac, c]) (hx : xc.token.kind = .name x)
    (ha : ac.token.kind = .operator .assign)
    (lowX : xc.token.priority < ac.token.priority) (lowC : c.token.priority ≤ ac.token.priority)
    (operand : c.token.kind.isOperand = true) (unbound : m.symbols.contains x = false) :
    match m.valueOf c.token with
    | .ok v => ∃ m', m.next = .ok m' ∧ m'.symbols = extended m.symbols x v
    | .error _ => ∃ e, m.next = .error (.error e) := by
  have step := next_chosen (f := ⟨[xc], ac, [c]⟩) ready (by simp [Focus.cells, cells])
    (by simp [cells, hx, TokenKind.isScopeBracket])
    ⟨by simpa using lowX, by simpa using lowC⟩
  have target : Action.assignmentTarget? [xc] = some (x, none, []) := by
    simp [Action.assignmentTarget?, hx]
  rw [Action.outcome_act_assign (f := ⟨[xc], ac, [c]⟩) ready.distinct
    (by simp [Focus.cells, cells]) ha
    rfl target rfl operand] at step
  rw [step]
  cases value : m.valueOf c.token with
  | error stop =>
      obtain ⟨e, rfl⟩ := valueOf_error value
      exact ⟨e, rfl⟩
  | ok v =>
      simp [Action.assignment, Action.assignedValue, Operator.operation?, Action.assigned, unbound,
        Symbols.add, extended]

/-- The statement `x = e` binds `x` to the value of `e`, or stops where prefix operators meet, or
fails if `e` has no value. -/
theorem assigns_cases {m : Machine} {x : String} {e : Expr} (assigns : m.Assigns x e)
    (unbound : m.symbols.contains x = false) (composed : e.Composed Priority.logical)
    (shallow : e.depth ≤ Expr.maxDepth) :
    (∃ v, e.eval m.valueOfName = .ok v ∧ e.clashes = false ∧ m.Binds x v) ∨
      (e.clashes = true ∧ m.Sticks) ∨
      ∃ cause, e.eval m.valueOfName = .error cause ∧ m.Fails := by
  obtain ⟨xc, rest, hcells, hx, hrest⟩ := List.map_eq_cons_iff.1 assigns.kinds
  obtain ⟨ac, cells, rfl, ha, hkinds⟩ := List.map_eq_cons_iff.1 hrest
  have fresh := assigns.fresh
  rw [hcells] at fresh
  obtain ⟨t, rfl, tree⟩ := Expr.exists_tree hkinds (fun c hc => fresh c (by simp [hc])) composed
    (by omega : e.depth + 0 ≤ Expr.maxDepth)
  have rankX : xc.token.priority = Priority.inert := by
    rw [(fresh xc (by simp)).1, hx]
    rfl
  have rankA : ac.token.priority = Priority.assignment := by
    rw [(fresh ac (by simp)).1, ha]
    rfl
  have holds : m.Holds 0 [xc, ac] t [] :=
    { ready := assigns.ready
      cells := by simp [hcells]
      ranked := tree.ranked
      outside := by simp [rankX, rankA, Priority.inert, Priority.assignment]
      noBrace := by simp [hx, TokenKind.isScopeBracket]
      follow := by simp }
  obtain ⟨n, stays, result⟩ := holds.after
  have unchanged : ∀ k ≤ n, ∀ m'', m.after k = .ok m'' → m''.symbols = m.symbols := by
    refine Stays.keeps (stays.mono ?_)
    rintro m' ⟨cells, ids, rfl⟩
    rfl
  rcases result with ⟨c, ids, reached, settled⟩ | ⟨m', err, reached, failed, blames⟩
  · have fewer : (([xc, ac] ++ [c]).map Cell.ref).Sublist m.work.line.refs := by
      rw [Line.refs, hcells]
      simpa using settled.member
    have ready : (m.onLine ([xc, ac] ++ [c]) ids).Ready := assigns.ready.onLine fewer
    have lowC : c.token.priority ≤ ac.token.priority := by
      have := settled.idle
      rw [rankA]
      simp only [Priority.deferred, Priority.assignment] at this ⊢
      omega
    have step := next_assign ready rfl hx ha (by rw [rankX, rankA]; decide) lowC settled.operand
      unbound
    have value := settled.value.trans (tree.value m)
    rw [valueOf_onLine] at step
    cases evaluated : e.eval m.valueOfName with
    | ok v =>
        rw [evaluated, Except.toOption_eq_some.2 rfl, Except.toOption_eq_some] at value
        rw [value] at step
        obtain ⟨m', next, declares⟩ := step
        refine .inl ⟨v, rfl, tree.expr ▸ settled.calm, n + 1, m', ?_, declares,
          fun k hk => unchanged k (by omega)⟩
        rw [after_trans reached, after_one]
        exact next
    | error cause =>
        rw [evaluated, Except.toOption_eq_none.2 ⟨_, rfl⟩, Except.toOption_eq_none] at value
        obtain ⟨stop, value⟩ := value
        rw [value] at step
        obtain ⟨err, failed⟩ := step
        exact .inr (.inr ⟨cause, rfl, n, _, err, reached, failed, unchanged⟩)
  · rcases blames with none | ⟨clashes, token, cause⟩
    · obtain ⟨cause, evaluated⟩ := Except.toOption_eq_none.1 ((tree.value m).symm.trans none)
      exact .inr (.inr ⟨cause, evaluated, n, m', err, reached, failed, unchanged⟩)
    · exact .inr (.inl ⟨tree.expr ▸ clashes, n, m', err, token, reached, failed, cause, unchanged⟩)

theorem binds_or_fails {m : Machine} {x : String} {e : Expr} (assigns : m.Assigns x e)
    (unbound : m.symbols.contains x = false) (wellFormed : e.WellFormed)
    (shallow : e.depth ≤ Expr.maxDepth) :
    match e.eval m.valueOfName with
    | .ok v => m.Binds x v
    | .error _ => m.Fails := by
  rcases assigns_cases assigns unbound wellFormed.composed shallow with
    ⟨v, evaluated, -, binds⟩ | ⟨clashes, -⟩ | ⟨cause, evaluated, fails⟩
  · rw [evaluated]
    exact binds
  · simp [wellFormed.clashes] at clashes
  · rw [evaluated]
    exact fails

/-- Reduction by priorities computes evaluation by precedence: on the statement `x = e`, with `x`
not bound and `e` written as the grammar says, steps bind `x` to `v` exactly if the recursive
evaluator gives `v`, and end in an error exactly if the evaluator does. -/
theorem assigns_eval {m : Machine} {x : String} {e : Expr} (assigns : m.Assigns x e)
    (unbound : m.symbols.contains x = false) (wellFormed : e.WellFormed)
    (shallow : e.depth ≤ 99) :
    (∀ v, m.Binds x v ↔ e.eval m.valueOfName = .ok v) ∧
      (m.Fails ↔ ∃ cause, e.eval m.valueOfName = .error cause) := by
  have outcome := binds_or_fails assigns unbound wellFormed shallow
  cases evaluated : e.eval m.valueOfName with
  | ok v =>
      rw [evaluated] at outcome
      refine ⟨fun w => ⟨fun binds => ?_, fun same => ?_⟩, fun fails => ?_, fun ⟨_, h⟩ => ?_⟩
      · rw [outcome.unique binds]
      · cases same
        exact outcome
      · exact absurd fails outcome.not_fails
      · cases h
  | error cause =>
      rw [evaluated] at outcome
      refine ⟨fun w => ⟨fun binds => ?_, fun same => ?_⟩, fun _ => ⟨cause, rfl⟩, fun _ => outcome⟩
      · exact absurd outcome binds.not_fails
      · cases same

def onKinds (symbols : Symbols) (kinds : List TokenKind) : Machine :=
  { program := {}
    symbols
    work := { line := Line.ofTokens (kinds.map fun kind => .new kind 0 1) } }

theorem foldl_append (l : Line) (ts : List Token) :
    (ts.foldl Line.append l).tokens = l.tokens ++ ts ∧
      (ts.foldl Line.append l).refs = l.refs ++ List.range' l.nextRef ts.length := by
  induction ts generalizing l with
  | nil => simp
  | cons t ts ih =>
      obtain ⟨tokens, refs⟩ := ih (l.append t)
      rw [Line.tokens_append] at tokens
      rw [Line.refs_append] at refs
      refine ⟨by simpa using tokens, ?_⟩
      rw [List.foldl_cons, refs, List.length_cons, List.range'_succ]
      simp [Line.append, Line.newCell, Line.withCells]

theorem assigns_onKinds (symbols : Symbols) (x : String) (e : Expr) :
    (onKinds symbols (.name x :: .operator .assign :: e.kinds)).Assigns x e := by
  have made := foldl_append {}
    ((.name x :: .operator .assign :: e.kinds).map fun kind => Token.new kind 0 1)
  have tokens : (onKinds symbols (.name x :: .operator .assign :: e.kinds)).work.line.tokens =
      (.name x :: .operator .assign :: e.kinds).map fun kind => Token.new kind 0 1 := made.1
  refine ⟨⟨rfl, rfl, ?_⟩, ?_, ?_⟩
  · have refs : (onKinds symbols (.name x :: .operator .assign :: e.kinds)).work.line.refs = _ :=
      made.2
    rw [refs]
    exact List.nodup_range'
  · have kinds := congrArg (List.map Token.kind) tokens
    simpa [Line.tokens, Function.comp_def, Token.new] using kinds
  · intro c hc
    have member : c.token ∈
        (onKinds symbols (.name x :: .operator .assign :: e.kinds)).work.line.tokens :=
      List.mem_map_of_mem hc
    rw [tokens] at member
    obtain ⟨kind, -, same⟩ := List.mem_map.1 member
    rw [Cell.Fresh, ← same]
    exact ⟨rfl, rfl⟩

def negatedPower : Expr :=
  .between .mul
    (.before .negate (.between .pow
      (.group (.between .add (.literal (.int 2)) (.name "y"))) (.literal (.int 2))))
    (.literal (.int 3))

def symbolsWithY : Symbols :=
  { bindings := [("y", { value := .int 1, type := .int, origin := .declaration })] }

theorem assigns_negatedPower :
    negatedPower.WellFormed ∧ negatedPower.depth ≤ 99 ∧
      (onKinds symbolsWithY (.name "x" :: .operator .assign :: negatedPower.kinds)).Binds "x"
        (.int (-27)) := by
  have wellFormed : negatedPower.WellFormed := by decide
  have shallow : negatedPower.depth ≤ 99 := by decide
  have assigns : (onKinds symbolsWithY
      (.name "x" :: .operator .assign :: negatedPower.kinds)).Assigns "x" negatedPower :=
    { ready := ⟨rfl, rfl, by decide⟩
      kinds := by decide
      fresh := by decide }
  refine ⟨wellFormed, shallow, ?_⟩
  exact ((assigns_eval assigns (by decide) wellFormed shallow).1 _).2 rfl

/-!
## Prefix operators that meet
-/

theorem sticks_of_clashes {m : Machine} {x : String} {e : Expr} {v : Value}
    (assigns : m.Assigns x e) (unbound : m.symbols.contains x = false)
    (composed : e.Composed Priority.logical) (shallow : e.depth ≤ Expr.maxDepth)
    (value : e.eval m.valueOfName = .ok v) (clashes : e.clashes = true) : m.Sticks := by
  rcases assigns_cases assigns unbound composed shallow with
    ⟨-, -, calm, -⟩ | ⟨-, sticks⟩ | ⟨cause, failed, -⟩
  · simp [clashes] at calm
  · exact sticks
  · simp [value] at failed

/-- With any number of prefix operators before its operands, an expression that has a value is
reduced to it exactly if no prefix operator stands directly before another one and no `-` before a
power is the right operand of a power.  Otherwise the run stops at a token that cannot
be reduced. -/
theorem composed_binds_iff {m : Machine} {x : String} {e : Expr} {v : Value}
    (assigns : m.Assigns x e) (unbound : m.symbols.contains x = false)
    (composed : e.Composed Priority.logical) (shallow : e.depth ≤ 99)
    (value : e.eval m.valueOfName = .ok v) :
    (m.Binds x v ↔ e.clashes = false) ∧ (m.Sticks ↔ e.clashes = true) := by
  have outcome := assigns_cases assigns unbound composed shallow
  cases clashes : e.clashes with
  | true =>
      have sticks := sticks_of_clashes assigns unbound composed shallow value clashes
      simp only [Bool.true_eq_false, iff_false, iff_true]
      exact ⟨fun binds => binds.not_fails sticks.fails, sticks⟩
  | false =>
      rcases outcome with ⟨w, evaluated, -, binds⟩ | ⟨clashes', -⟩ | ⟨cause, failed, -⟩
      · obtain rfl : v = w := by simpa [value] using evaluated
        simp only [Bool.false_eq_true, iff_true, iff_false]
        exact ⟨binds, fun sticks => binds.not_fails sticks.fails⟩
      · simp [clashes] at clashes'
      · simp [value] at failed

def prefixed : Expr :=
  .between .and
    (.before .not (.group (.between .equal
      (.before .negate (.between .pow (.name "y") (.literal (.int 2)))) (.literal (.int 1)))))
    (.between .less (.between .sub (.literal (.int 0)) (.before .negate (.name "y")))
      (.literal (.int 2)))

theorem composed_binds_prefixed :
    prefixed.Composed Priority.logical ∧ prefixed.depth ≤ 99 ∧ prefixed.clashes = false ∧
      (onKinds symbolsWithY (.name "x" :: .operator .assign :: prefixed.kinds)).Binds "x"
        (.bool true) := by
  have composed : prefixed.Composed Priority.logical := by decide
  have shallow : prefixed.depth ≤ 99 := by decide
  have calm : prefixed.clashes = false := rfl
  refine ⟨composed, shallow, calm, ?_⟩
  exact (composed_binds_iff (assigns_onKinds _ _ _) (by decide) composed shallow rfl).1.2 calm

def doubled : Expr :=
  .before .negate (.before .negate (.literal (.int 1)))

def powered : Expr :=
  .between .pow (.literal (.int 2))
    (.before .negate (.between .pow (.literal (.int 0)) (.literal (.int 2))))

/-- Both expressions have a value, and the statements with them bind nothing. -/
theorem prefixes_stick :
    (doubled.Composed Priority.logical ∧ powered.Composed Priority.logical) ∧
      (∀ look, doubled.eval look = .ok (.int 1) ∧ powered.eval look = .ok (.int 1)) ∧
      ∀ e, e = doubled ∨ e = powered →
        let m := onKinds {} (.name "x" :: .operator .assign :: e.kinds)
        m.Sticks ∧ ∀ v, ¬ m.Binds "x" v := by
  have composed : doubled.Composed Priority.logical ∧ powered.Composed Priority.logical := by decide
  refine ⟨composed, fun look => ⟨rfl, rfl⟩, fun e he => ?_⟩
  have sticks : (onKinds {} (.name "x" :: .operator .assign :: e.kinds)).Sticks := by
    rcases he with rfl | rfl
    · exact sticks_of_clashes (assigns_onKinds _ _ _) rfl composed.1 (by decide) rfl rfl
    · exact sticks_of_clashes (assigns_onKinds _ _ _) rfl composed.2 (by decide) rfl rfl
  exact ⟨sticks, fun v binds => binds.not_fails sticks.fails⟩

end Machine

end LineScript
