import LineScript.Proofs.Structured.Simulation

/-!
# Printing an expression

In `system println e` the expression stands behind a name, and behind a name a `(` is that of a call
and a `-` is a difference.  An expression that starts with neither is printed.  One that starts with
`(` is read as a call of a function `println`, which the script does not define (`Expr.called`), and
one that starts with `-` as a difference of `println` and what follows (`Expr.lessened`).  Neither
has a value, so these scripts stop.
-/

namespace LineScript

theorem lineText_congr {ks ks' : List TokenKind}
    (same : ks.map TokenKind.lexeme = ks'.map TokenKind.lexeme) : lineText ks = lineText ks' := by
  induction ks generalizing ks' with
  | nil =>
      obtain rfl := List.map_eq_nil_iff.1 same.symm
      rfl
  | cons k ks ih =>
      obtain ⟨k', ks', rfl, hk, hks⟩ := List.map_eq_cons_iff.1 same.symm
      have rest := ih hks.symm
      cases ks with
      | nil =>
          obtain rfl := List.map_eq_nil_iff.1 hks
          simp [lineText, hk]
      | cons l ks =>
          obtain ⟨l', ks', rfl, -, -⟩ := List.map_eq_cons_iff.1 hks
          simp only [lineText, hk, rest]

namespace Expr

/-!
## A difference behind a name
-/

def stripped : Expr → Expr
  | .before _ e => e
  | .between op l r => .between op l.stripped r
  | e => e

/-- The expression as it is read behind a name: the `-` that it starts with takes the name as its
left operand, and binds less tightly than before. -/
def lessened (name : String) : Expr → Expr
  | .between op l r =>
      -- What does not bind more tightly than the difference has it in its left operand.
      if op.priority ≤ Priority.additive then .between op (l.lessened name) r
      else .between .sub (.name name) (.between op l.stripped r)
  | e => .between .sub (.name name) e.stripped

theorem kinds_stripped {e : Expr} (negated : e.first = .operator .negate) :
    e.kinds = .operator .negate :: e.stripped.kinds := by
  induction e with
  | before op e => simp_all [first, kinds, stripped]
  | between op l r ihl _ => simp [kinds, stripped, ihl negated]
  | _ => simp [first] at negated

theorem kinds_lessened {e : Expr} (name : String) (negated : e.first = .operator .negate) :
    (e.lessened name).kinds = .name name :: .operator .sub :: e.stripped.kinds := by
  induction e with
  | before op e => rfl
  | between op l r ihl _ =>
      rw [lessened]
      split
      · simp [kinds, stripped, ihl negated]
      · rfl
  | _ => simp [first] at negated

theorem lexemes_lessened {e : Expr} (name : String) (negated : e.first = .operator .negate) :
    (e.lessened name).kinds.map TokenKind.lexeme =
      (.name name :: e.kinds).map TokenKind.lexeme := by
  rw [kinds_lessened name negated, kinds_stripped negated]
  rfl

theorem Fits.mono {floor floor' : Int} {e : Expr} (fits : e.Fits floor) (le : floor' ≤ floor) :
    e.Fits floor' := by
  cases e with
  | literal v => trivial
  | name s => trivial
  | group e => exact fits
  | before op e =>
      obtain ⟨unary, operand, shape⟩ := fits
      exact ⟨unary, operand, shape.imp_right fun ⟨h, chain, low⟩ => ⟨h, chain, by omega⟩⟩
  | between op l r =>
      obtain ⟨binary, low, rest⟩ := fits
      exact ⟨binary, by omega, rest⟩

theorem Fits.endsNegated_of_first {e : Expr} (fits : e.Fits Priority.power)
    (negated : e.first = .operator .negate) : e.endsNegated = true := by
  induction e with
  | before op e => simp_all [first, endsNegated]
  | between op l r ihl _ =>
      obtain ⟨binary, low, left, -, ends⟩ := fits
      obtain rfl := Tree.eq_pow_of_priority binary.1 low
      simp [ihl left negated] at ends
  | _ => simp [first] at negated

theorem Fits.stripped {e : Expr} (fits : e.Fits Priority.multiplicative)
    (negated : e.first = .operator .negate) : e.stripped.Fits Priority.multiplicative := by
  induction e with
  | before op e => exact fits.2.1.mono (by decide)
  | between op l r ihl _ =>
      obtain ⟨binary, low, left, right, ends⟩ := fits
      by_cases power : op = .pow
      · -- The `-` would have taken the whole power as its operand.
        subst power
        simp [left.endsNegated_of_first negated] at ends
      · have rank : op.priority = Priority.multiplicative := by
          cases op <;> simp_all [Operator.isUnary, Operator.priority, Priority.multiplicative,
            Priority.additive, Priority.comparison, Priority.logical, Priority.assignment]
        refine ⟨binary, low, ?_, right, fun h => absurd h power⟩
        rw [rank] at left ⊢
        exact ihl left negated
  | _ => simp [first] at negated

theorem Fits.lessened {floor : Int} {e : Expr} (name : String) (fits : e.Fits floor)
    (low : floor ≤ Priority.additive) (negated : e.first = .operator .negate) :
    (e.lessened name).Fits floor := by
  induction e generalizing floor with
  | before op e =>
      exact ⟨by decide, low, trivial, fits.2.1.mono (by decide), by simp⟩
  | between op l r ihl _ =>
      obtain ⟨binary, above, left, right, ends⟩ := fits
      rw [Expr.lessened]
      split
      · rename_i loose
        refine ⟨binary, above, ihl left loose negated, right, ?_⟩
        rintro rfl
        exact absurd loose (by decide)
      · rename_i tight
        refine ⟨by decide, low, trivial, ?_, by simp⟩
        refine Fits.stripped (e := .between op l r) ⟨binary, ?_, left, right, ends⟩ negated
        simp only [Priority.additive, Priority.multiplicative] at tight ⊢
        omega
  | _ => simp [first] at negated

theorem depth_stripped {e : Expr} (negated : e.first = .operator .negate) :
    e.stripped.depth = e.depth := by
  induction e with
  | before op e => rfl
  | between op l r ihl _ => simp [stripped, depth, ihl negated]
  | _ => simp [first] at negated

theorem depth_lessened {e : Expr} (name : String) (negated : e.first = .operator .negate) :
    (e.lessened name).depth = e.depth := by
  induction e with
  | before op e => simp [lessened, stripped, depth]
  | between op l r ihl _ =>
      rw [lessened]
      split
      · simp [depth, ihl negated]
      · simp [depth, depth_stripped (e := l) negated]
  | _ => simp [first] at negated

theorem written_stripped {e : Expr} (written : e.Written) : e.stripped.Written := by
  induction e with
  | before op e => exact written
  | between op l r ihl _ => exact ⟨ihl written.1, written.2⟩
  | _ => exact written

theorem written_lessened {e : Expr} {name : String} (named : Lexeme.isName name = true)
    (written : e.Written) : (e.lessened name).Written := by
  induction e with
  | between op l r ihl _ =>
      rw [lessened]
      split
      · exact ⟨ihl written.1, written.2⟩
      · exact ⟨named, written_stripped written.1, written.2⟩
  | _ => exact ⟨named, written_stripped written⟩

theorem Legal.lessened {e : Expr} {name : String} (legal : e.Legal)
    (named : Lexeme.isName name = true) (negated : e.first = .operator .negate) :
    (e.lessened name).Legal where
  wellFormed := legal.wellFormed.lessened name (by decide) negated
  shallow := by
    rw [depth_lessened name negated]
    exact legal.shallow
  written := written_lessened named legal.written

theorem isPrimary_lessened (name : String) (e : Expr) : (e.lessened name).isPrimary = false := by
  cases e with
  | between op l r =>
      rw [lessened]
      split <;> rfl
  | _ => rfl

theorem eval_lessened {look : String → Except Cause Value} {name : String} {cause : Cause}
    (unbound : look name = .error cause) (e : Expr) :
    (e.lessened name).eval look = .error cause := by
  have sub : ∀ r : Expr, (Expr.between .sub (.name name) r).eval look = .error cause := by
    intro r
    simp [eval, unbound]
  induction e with
  | between op l r ihl _ =>
      rw [lessened]
      split
      · simp [eval, ihl]
      · exact sub _
  | _ => exact sub _

/-!
## A call behind a name
-/

/-- The tokens of an expression as they are read behind a name, if it starts with `(`. -/
def called : Expr → List TokenKind
  | .group e => .bracket .call .opening :: e.kinds ++ [.bracket .call .closing]
  | .between op l r => l.called ++ .operator op :: r.kinds
  | e => e.kinds

theorem lexemes_called (e : Expr) :
    e.called.map TokenKind.lexeme = e.kinds.map TokenKind.lexeme := by
  induction e with
  | group e => simp [called, kinds, TokenKind.lexeme]
  | between op l r ihl _ => simp [called, kinds, ihl]
  | _ => rfl

theorem mem_called {e : Expr} {k : TokenKind} (member : k ∈ e.called) :
    k ∈ e.kinds ∨ ∃ side, k = .bracket .call side := by
  induction e with
  | group e =>
      simp only [called, List.cons_append, List.mem_cons, List.mem_append, List.not_mem_nil,
        or_false] at member
      rcases member with h | h | h
      · exact .inr ⟨_, h⟩
      · exact .inl (by simp [kinds, h])
      · exact .inr ⟨_, h⟩
  | between op l r ihl _ =>
      rcases List.mem_append.1 member with h | h
      · exact (ihl h).imp_left fun h => by simp [kinds, h]
      · exact .inl (by simp [kinds, List.mem_cons.1 h])
  | _ => exact .inl member

theorem afterValue_called (e : Expr) (s : Draft) (n : Nat) :
    (s.putAll n e.called).afterValue = true := by
  cases e with
  | group e =>
      rw [called, Draft.putAll_append]
      simp [Draft.putAll, Draft.afterValue_put]
  | between op l r =>
      rw [called, Draft.putAll_append]
      exact r.afterValue_putAll _ n
  | _ => exact afterValue_putAll _ s n

theorem reads_called {e : Expr} {floor : Int} (written : e.Written) (fits : e.Fits floor)
    (grouped : e.first = .bracket .paren .opening) {s : Draft} (name : s.afterName = true)
    (n : Nat) : s.Reads n e.called := by
  induction e generalizing floor with
  | group e =>
      refine Draft.Reads.group (by simp [name]) (e.reads written fits (.inl ?_) n)
      simp [Draft.afterValue_put]
  | between op l r ihl _ =>
      obtain ⟨binary, -, left, right, -⟩ := fits
      refine .append (ihl written.1 left grouped) ?_
      refine .cons (add_between binary.1 (l.afterValue_called s n) n)
        (r.reads written.2 right (.inl ?_) n)
      simp [Draft.afterValue_put]
  | _ => simp [first] at grouped

theorem exists_called {e : Expr} {floor : Int} (written : e.Written) (fits : e.Fits floor)
    (grouped : e.first = .bracket .paren .opening) :
    ∃ (inner : Expr) (rest : List TokenKind),
      e.called = .bracket .call .opening :: (inner.kinds ++ .bracket .call .closing :: rest) ∧
        inner.Written ∧ inner.WellFormed ∧ inner.depth + 1 ≤ e.depth := by
  induction e generalizing floor with
  | group e => exact ⟨e, [], by simp [called], written, fits, Nat.le_refl _⟩
  | between op l r ihl _ =>
      obtain ⟨inner, rest, same, writtenInner, wellFormed, shallow⟩ :=
        ihl written.1 fits.2.2.1 grouped
      refine ⟨inner, rest ++ .operator op :: r.kinds, by simp [called, same], writtenInner,
        wellFormed, ?_⟩
      simp only [depth]
      omega
  | _ => simp [first] at grouped

theorem basePriority_called {e : Expr} (written : e.Written) :
    ∀ k ∈ e.called, k.basePriority ≤ Priority.bracket := by
  intro k member
  rcases mem_called member with member | ⟨side, rfl⟩
  · rcases e.mem_kinds written member with ⟨v, rfl, -⟩ | ⟨t, rfl, -⟩ | ⟨op, rfl⟩ | ⟨side, rfl⟩
    · exact (by decide : Priority.inert ≤ Priority.bracket)
    · exact (by decide : Priority.inert ≤ Priority.bracket)
    · cases op <;> decide
    · cases side <;> decide
  · cases side <;> decide

end Expr

/-!
## Scripts of one line
-/

def printing (e : Expr) : String :=
  String.ofList (lineText (.keyword .system :: .name "println" :: e.kinds))

def assigning (x : String) (e : Expr) : Body :=
  .cons (.assign (.set x e)) .nil

theorem exists_start {ks : List TokenKind} (filled : ks ≠ []) (clean : Clean ks)
    (properties : List (String × String)) :
    ∃ p cells, Program.load (String.ofList (lineText ks)) = .ok p ∧ p.Loaded ∧ p.length = 1 ∧
      (startOf p properties).Shows p {} [] ∧ (startOf p properties).WorksOn 0 cells .statement ∧
      cells.map (fun c => c.token.kind) = ks ∧ ∀ c ∈ cells, c.Fresh := by
  have tidy : (Layout.line ks .nil).Tidy := ⟨⟨filled, clean⟩, trivial⟩
  obtain ⟨p, load, kinds, loaded, -⟩ := tidy.load
  obtain ⟨line, lines, same⟩ := List.map_eq_singleton_iff.1 kinds
  obtain ⟨shows, works⟩ := startOf_arrives loaded properties
  simp only [lines, List.getElem?_cons_zero] at works
  refine ⟨p, line.cells, ?_, loaded, by simp [Program.length, lines], shows, works, same,
    (loaded line (by simp [lines])).fresh⟩
  simpa [Layout.code] using load

theorem clean_system {ks : List TokenKind} (written : ∀ k ∈ ks, k.Written)
    (reads : ∀ (s : Draft) (n : Nat), s.afterName = true → s.Reads n ks) :
    Clean (.keyword .system :: .name "println" :: ks) where
  written := by
    intro k member
    simp only [List.mem_cons] at member
    rcases member with rfl | rfl | member
    · exact ⟨trivial, rfl⟩
    · exact ⟨(by decide : Lexeme.isName "println" = true), rfl⟩
    · exact written k member
  reads := fun s _ n => .cons rfl (.cons rfl (reads _ n (by simp [Draft.afterName, Draft.put])))

namespace Machine

section
variable {m : Machine} {p : Program} {e : Expr} {cells : List Cell}

/-- An expression behind `system println` is reduced, and its value printed. -/
theorem prints {v : Value} (loaded : p.Loaded) (one : p.length = 1) (legal : e.Legal)
    (value : e.eval ({} : Env).look = .ok v) (shows : m.Shows p {} [])
    (works : m.WorksOn 0 cells .statement)
    (kinds : cells.map (fun c => c.token.kind) = .keyword .system :: .name "println" :: e.kinds)
    (fresh : ∀ c ∈ cells, c.Fresh) :
    ∃ m', m.Finishes m' ∧ m'.sink.Holds (v.text ++ "\n") := by
  obtain ⟨sc, rest, rfl, hs, hrest⟩ := List.map_eq_cons_iff.1 kinds
  obtain ⟨pc, cells, rfl, hp, hcells⟩ := List.map_eq_cons_iff.1 hrest
  have rankS : sc.token.priority = 0 := by
    rw [(fresh sc (by simp)).1, hs]
    rfl
  have rankP : pc.token.priority = Priority.inert := by
    rw [(fresh pc (by simp)).1, hp]
    rfl
  rcases evaluates legal shows [sc, pc] [] (by simpa using works) hcells
    (fun c hc => fresh c (by simp [hc])) (by simp [rankS, rankP, Priority.inert])
    (by simp [hs, TokenKind.isScopeBracket]) (by simp) with
    ⟨cause, failed, -⟩ | ⟨k, m', x, reached, shows', works', reduced⟩
  · simp [value] at failed
  · have low : ∀ c ∈ [pc, x], c.token.priority ≤ sc.token.priority := by
      have idle := reduced.idle
      simp only [Priority.deferred] at idle
      simp only [List.mem_cons, List.not_mem_nil, or_false, forall_eq_or_imp, forall_eq, rankS,
        rankP, Priority.inert]
      omega
    have found : m'.valueOf x.token = .ok v := by
      rcases reduced.cases with ⟨w, evaluated, found⟩ | ⟨cause, err, evaluated, -⟩
      · rw [value] at evaluated
        cases evaluated
        exact found
      · simp [value] at evaluated
    have args : Action.builtinArguments m' [x] = .ok ([v], []) := by
      have operand := reduced.operand
      have notComma : x.token.kind ≠ .comma := by
        intro h
        simp [h, TokenKind.isOperand] at operand
      simp [Action.builtinArguments, notComma, operand, found]
    obtain ⟨m₁, step, -, shows₁, works₁⟩ := next_printed shows' works' hs hp low args
    obtain ⟨m₂, last, shows₂, passed⟩ := next_arrives loaded shows₁ works₁
    rw [Nat.zero_add, List.getElem?_eq_none (Nat.le_of_eq one)] at passed
    refine ⟨m₂, ⟨passed, k + (1 + 1), ?_⟩, ?_⟩
    · rw [after_trans reached, after_succ, step, Except.bind_ok, after_one, last]
    · simpa using shows₂.sink

end

end Machine

/-!
## Steps of a call
-/

def Cell.reached (c : Cell) : Cell :=
  { c with token := { c.token with expanded := true } }

namespace Machine

section
variable {m : Machine} {p : Program} {e : Expr} {cells : List Cell}

structure Calls (m : Machine) (sc pc oc : Cell) (inner : List Cell) (cc : Cell) (rest : List Cell) :
    Prop where
  ready : m.Ready
  cells : m.work.line.cells = sc :: pc :: oc :: (inner ++ cc :: rest)
  system : sc.token.kind = .keyword .system
  name : pc.token.kind = .name "println"
  opening : oc.token.kind = .bracket .call .opening
  closing : cc.token.kind = .bracket .call .closing
  plain : ∀ c ∈ inner, ∀ side, c.token.kind ≠ .bracket .call side
  before : sc.token.priority < oc.token.priority ∧ pc.token.priority < oc.token.priority
  after : ∀ c ∈ inner ++ cc :: rest, c.token.priority ≤ oc.token.priority

section
variable {sc pc oc cc : Cell} {inner rest : List Cell}

theorem Calls.next (calls : m.Calls sc pc oc inner cc rest) :
    m.next = ((Action.act ⟨[pc, sc], oc, inner ++ cc :: rest⟩).outcome m).map Prod.snd := by
  refine next_chosen calls.ready (by simp [Focus.cells, calls.cells]) ?_ ⟨?_, calls.after⟩
  · simp [calls.cells, calls.system, TokenKind.isScopeBracket]
  · simp [calls.before]

theorem Calls.next_boosts (calls : m.Calls sc pc oc inner cc rest)
    (new : oc.token.expanded = false) :
    m.next = .ok (m.onLine ([sc, pc, oc.reached] ++ inner.map (Line.boostCell Priority.boost) ++
      cc :: rest) 0) := by
  rw [calls.next, Action.outcome_act_opening (b := .call) calls.ready.distinct
    (by simp [Focus.cells, calls.cells]) calls.opening (by decide) new
    (Tree.splitClose?_plain rest calls.plain calls.closing)]
  simp [Cell.reached]

theorem Calls.reduced {x : Cell} (calls : m.Calls sc pc oc inner cc rest)
    (rank : oc.token.priority = Priority.bracket) (operand : x.token.kind.isOperand = true)
    (idle : x.token.priority < Priority.deferred) (member : x.ref ∈ inner.map Cell.ref)
    (ids : Nat) : (m.onLine ([sc, pc, oc.reached] ++ x :: cc :: rest) ids).Calls sc pc oc.reached
      [x] cc rest where
  ready := by
    refine calls.ready.onLine ?_
    have kept : ([x.ref] ++ (cc :: rest).map Cell.ref).Sublist
        (inner.map Cell.ref ++ (cc :: rest).map Cell.ref) :=
      (List.singleton_sublist.2 member).append_right _
    simpa [Line.refs, calls.cells, Cell.reached] using kept
  cells := rfl
  system := calls.system
  name := calls.name
  opening := calls.opening
  closing := calls.closing
  plain := by
    intro c hc side kind
    obtain rfl := List.mem_singleton.1 hc
    simp [kind, TokenKind.isOperand] at operand
  before := calls.before
  after := by
    intro c hc
    rcases List.mem_append.1 hc with hc | hc
    · obtain rfl := List.mem_singleton.1 hc
      simp only [Cell.reached, rank, Priority.bracket, Priority.deferred] at idle ⊢
      omega
    · exact calls.after c (List.mem_append_right _ hc)

/-- With its argument reduced, the call fails: there is no function `println`. -/
theorem Calls.breaks {x : Cell} (calls : m.Calls sc pc oc [x] cc rest)
    (reached : oc.token.expanded = true) (operand : x.token.kind.isOperand = true)
    (shows : m.Shows p {} []) : m.Breaks := by
  have read : Action.readArguments m cc [] true [x] = (m.valueOf x.token).map fun v => [v] := by
    simp only [Action.readArguments, operand, Bool.not_true, Bool.and_false, Bool.false_eq_true,
      if_false, Bool.and_self, if_true]
    cases m.valueOf x.token <;> rfl
  have called : Action.calleeBefore? ⟨[pc, sc], oc, [x] ++ cc :: rest⟩ =
      some (pc.ref, "println") := by
    simp [Action.calleeBefore?, Focus.prev?, calls.name, TokenKind.name?]
  have unknown : m.callee "println" = .error (.undefinedFunction "println") := by
    rw [callee, shows.symbols, shows.functions]
    rfl
  have enclosed := Line.enclosed_eq calls.opening
  have step := calls.next
  rw [Action.outcome_act_paren (b := .call) calls.opening (by decide)] at step
  simp only [Action.applyParen, enclosed, Action.ofFault_ok_bind,
    Tree.splitClose?_plain rest calls.plain calls.closing, reached,
    Bool.not_true, Bool.false_eq_true, if_false, if_true, Action.beginCall, called,
    Action.outcome_bind, Action.outcome_get, Except.bind_ok, Action.outcome_ofExcept, read] at step
  cases value : m.valueOf x.token with
  | error stop =>
      obtain ⟨err, rfl⟩ := valueOf_error value
      rw [value] at step
      exact Breaks.of_next step
  | ok v =>
      rw [value] at step
      simp only [Except.map_ok_eq, Except.bind_ok, Action.outcome_ofCause, unknown] at step
      exact Breaks.of_next step

/-- The argument is reduced, and then the call fails, unless the argument does. -/
theorem Calls.breaks_of_ranked {t : Tree} (calls : m.Calls sc pc oc t.cells cc rest)
    (new : oc.token.expanded = false) (rank : oc.token.priority = Priority.bracket)
    (ranked : t.Ranked 0 1 Priority.logical) (shows : m.Shows p {} []) : m.Breaks := by
  have first := (after_one m).trans (calls.next_boosts new)
  have holds : (m.onLine ([sc, pc, oc.reached] ++ t.cells.map (Line.boostCell Priority.boost) ++
      cc :: rest) 0).Holds Priority.boost [sc, pc, oc.reached] (t.boost Priority.boost)
        (cc :: rest) :=
    { ready := by
        refine calls.ready.onLine ?_
        have same : Cell.ref ∘ Line.boostCell Priority.boost = Cell.ref := rfl
        simp [Line.refs, calls.cells, Cell.reached, same]
      cells := by simp
      ranked := by simpa using Tree.ranked_boost ranked
      outside := by
        intro c hc
        have := calls.before
        have low : c.token.priority ≤ oc.token.priority := by
          simp only [List.mem_append, List.mem_cons, List.not_mem_nil, or_false] at hc
          rcases hc with (rfl | rfl | rfl) | hc
          · omega
          · omega
          · exact Int.le_refl _
          · exact calls.after c (by simp [hc])
        rw [rank] at low
        exact Int.le_trans low (by decide)
      noBrace := by simp [calls.system, TokenKind.isScopeBracket]
      follow := by simp [calls.closing] }
  refine Breaks.of_after first ?_
  -- The argument is reduced while it is boosted; then the parenthesis outranks it again.
  obtain ⟨n, -, ⟨x, ids, reached, comes⟩ | ⟨m', err, reached, failed, -⟩⟩ := holds.after
  · have member : x.ref ∈ t.cells.map Cell.ref := by
      have := comes.member
      simpa [Line.boostCell, Function.comp_def] using this
    rw [onLine_onLine] at reached
    exact Breaks.of_after reached ((calls.reduced rank comes.operand comes.idle member _).breaks rfl
      comes.operand (shows.onLine _ _))
  · exact ⟨n, m', err, reached, failed⟩

end

/-- An expression that starts with `(` is read as a call of `println`, which is no function. -/
theorem breaks_of_called (legal : e.Legal) (grouped : e.first = .bracket .paren .opening)
    (shows : m.Shows p {} []) (works : m.WorksOn 0 cells .statement)
    (kinds : cells.map (fun c => c.token.kind) = .keyword .system :: .name "println" :: e.called)
    (fresh : ∀ c ∈ cells, c.Fresh) : m.Breaks := by
  obtain ⟨inner, rest, same, written, wellFormed, shallow⟩ :=
    Expr.exists_called legal.written legal.wellFormed grouped
  obtain ⟨sc, tail, rfl, hs, htail⟩ := List.map_eq_cons_iff.1 kinds
  obtain ⟨pc, tail, rfl, hp, htail⟩ := List.map_eq_cons_iff.1 htail
  have low : ∀ c ∈ tail, c.token.priority ≤ Priority.bracket := by
    intro c hc
    rw [(fresh c (by simp [hc])).1]
    exact Expr.basePriority_called legal.written _ (htail ▸ List.mem_map.2 ⟨c, hc, rfl⟩)
  rw [same] at htail
  obtain ⟨oc, tail, rfl, ho, htail⟩ := List.map_eq_cons_iff.1 htail
  obtain ⟨ic, tail, rfl, hi, htail⟩ := List.map_eq_append_iff.1 htail
  obtain ⟨cc, rc, rfl, hc, hr⟩ := List.map_eq_cons_iff.1 htail
  have rankO : oc.token.priority = Priority.bracket := by
    rw [(fresh oc (by simp)).1, ho]
    rfl
  obtain ⟨t, rfl, tree⟩ := Expr.exists_tree hi (fun c hc => fresh c (by simp [hc]))
    wellFormed.composed (Nat.le_trans shallow legal.shallow)
  have calls : m.Calls sc pc oc t.cells cc rc :=
    { ready := works.ready (by simp [hs, TokenKind.isScopeBracket])
      cells := works.holds
      system := hs
      name := hp
      opening := ho
      closing := hc
      plain := by
        intro c hc side kind
        have member : TokenKind.bracket .call side ∈ inner.kinds := by
          rw [← hi, ← kind]
          exact List.mem_map.2 ⟨c, hc, rfl⟩
        rcases inner.mem_kinds written member with ⟨v, h, -⟩ | ⟨s, h, -⟩ | ⟨op, h⟩ | ⟨side, h⟩ <;>
          cases h
      before := by
        rw [(fresh sc (by simp)).1, (fresh pc (by simp)).1, hs, hp, rankO]
        decide
      after := fun c hc => rankO ▸ low c (List.mem_cons_of_mem _ hc) }
  exact calls.breaks_of_ranked (fresh oc (by simp)).2 rankO tree.ranked shows

/-- An expression that starts with `-` is taken from `println`, which has no value. -/
theorem breaks_of_lessened (legal : e.Legal) (negated : e.first = .operator .negate)
    (shows : m.Shows p {} []) (works : m.WorksOn 0 cells .statement)
    (kinds : cells.map (fun c => c.token.kind) = .keyword .system :: (e.lessened "println").kinds)
    (fresh : ∀ c ∈ cells, c.Fresh) : m.Breaks := by
  obtain ⟨sc, rest, rfl, hs, hrest⟩ := List.map_eq_cons_iff.1 kinds
  have lessened : (e.lessened "println").Legal := legal.lessened (by decide) negated
  obtain ⟨t, rfl, tree⟩ := Expr.exists_tree hrest (fun c hc => fresh c (by simp [hc]))
    lessened.wellFormed.composed (Nat.le_trans (Nat.le_of_eq (Nat.add_zero _)) lessened.shallow)
  have rank : sc.token.priority = 0 := by
    rw [(fresh sc (by simp)).1, hs]
    rfl
  have holds : m.Holds 0 [sc] t [] :=
    { ready := works.ready (by simp [hs, TokenKind.isScopeBracket])
      cells := by simp [works.holds]
      ranked := tree.ranked
      outside := by simp [rank]
      noBrace := by simp [hs, TokenKind.isScopeBracket]
      follow := by simp }
  have unbound : m.valueOfName "println" = .error (.undeclared "println") := by
    rw [shows.valueOfName]
    rfl
  obtain ⟨n, -, ⟨x, ids, reached, comes⟩ | ⟨m', err, reached, failed, -⟩⟩ := holds.after
  · -- Only an operation that has a result leaves an operand, and here one has none.
    refine absurd ?_ (comes.computed ?_)
    · rw [tree.value, Expr.eval_lessened unbound]
      rfl
    · rw [tree.expr, Expr.isPrimary_lessened]
  · exact ⟨n, m', err, reached, failed⟩

end

end Machine

/-!
## Runs of one line
-/

section
variable {source : String} {p : Program} {properties : List (String × String)} {m : Machine}

theorem finishes_of_runScript (load : Program.load source = .ok p) {fuel : Nat}
    (ran : runScript fuel source { properties } = .ok (m, none)) (finished : m.finished = true) :
    (startOf p properties).Finishes m := by
  have whole : runScript fuel source { properties } =
      .ok (Machine.complete ((startOf p properties).run fuel)) := by
    simp [runScript, load, startOf]
  rw [whole] at ran
  rcases Machine.run_cases fuel (startOf p properties) with
    ⟨m', same, k, reached⟩ | ⟨m', stop, same, -⟩
  · rw [same, Machine.complete_ended] at ran
    simp only [Except.ok.injEq, Prod.mk.injEq] at ran
    obtain ⟨rfl, -⟩ := ran
    exact ⟨finished, k, reached⟩
  · rw [same, Machine.complete_stopped] at ran
    simp at ran

theorem exists_runScript_of_finishes (load : Program.load source = .ok p)
    (finishes : (startOf p properties).Finishes m) {text : String} (sink : m.sink.Holds text) :
    ∃ fuel, runScript fuel source { properties } = .ok (m, none) := by
  obtain ⟨finished, k, reached⟩ := finishes
  refine ⟨k, ?_⟩
  have ran := Machine.run_of_after reached
  rw [startOf] at ran
  simp [runScript, load, ran, finished, Machine.flush, Sink.canFlush, sink.reliable.flushes]

theorem exists_runScript_of_breaks (load : Program.load source = .ok p)
    (breaks : (startOf p properties).Breaks) :
    ∃ fuel m err, runScript fuel source { properties } = .ok (m, some (.error err)) := by
  obtain ⟨fuel, m, err, ran⟩ := Machine.run_of_breaks breaks
  rw [startOf] at ran
  exact ⟨fuel, m, err, by simp [runScript, load, ran]⟩

end

section
variable {x : String} {e : Expr} {v : Value}

theorem eval_of_assigning (named : Lexeme.isName x = true) (legal : e.Legal)
    {properties : List (String × String)} {fuel : Nat} {m : Machine}
    (ran : runScript fuel (assigning x e).source { properties } = .ok (m, none))
    (finished : m.finished = true) (bound : m.value? x = some v) :
    e.eval ({} : Env).look = .ok v := by
  have legal' : (assigning x e).Legal := ⟨⟨named, legal, trivial⟩, trivial⟩
  obtain ⟨p, load, meets⟩ := Body.start_meets legal' properties
  obtain ⟨n, env, done, shows⟩ :=
    Body.yields_of_finishes meets (finishes_of_runScript load ran finished)
  simp only [assigning, Body.exec, Statement.exec, Assignment.exec, Assignment.value] at done
  cases value : e.eval ({} : Env).look with
  | error cause => simp [value, Result.ofExcept, Result.andThen] at done
  | ok w =>
      have declared : (Assignment.set x e).assigned {} w =
          .ok { bindings := [(x, { value := w, type := w.type, origin := .declaration })] } := by
        simp [Assignment.assigned, Symbols.contains, Symbols.get?, Symbols.add]
      simp [value, declared, Result.ofExcept, Result.andThen] at done
      rw [Machine.value?, shows.symbols, ← done] at bound
      simpa [Symbols.get?] using bound

theorem printing_finishes (legal : e.Legal) (plain : e.StartsPlain)
    (value : e.eval ({} : Env).look = .ok v) (properties : List (String × String)) :
    ∃ p m, Program.load (printing e) = .ok p ∧ (startOf p properties).Finishes m ∧
      m.sink.Holds (v.text ++ "\n") := by
  have clean := clean_system (e.written_kinds legal.written)
    fun s n _ => e.reads legal.written legal.wellFormed (.inr plain) n
  obtain ⟨p, cells, load, loaded, one, shows, works, kinds, fresh⟩ :=
    exists_start (by simp) clean properties
  obtain ⟨m, finishes, sink⟩ := Machine.prints loaded one legal value shows works kinds fresh
  exact ⟨p, m, load, finishes, sink⟩

theorem printing_breaks (legal : e.Legal) (start : ¬ e.StartsPlain)
    (properties : List (String × String)) :
    ∃ p, Program.load (printing e) = .ok p ∧ (startOf p properties).Breaks := by
  -- The text is that of other tokens, with which the run begins.
  by_cases grouped : e.first = .bracket .paren .opening
  · have same : printing e =
        String.ofList (lineText (.keyword .system :: .name "println" :: e.called)) := by
      rw [printing]
      exact congrArg _ (lineText_congr (by simp [Expr.lexemes_called]))
    have written : ∀ k ∈ e.called, k.Written := by
      intro k member
      rcases Expr.mem_called member with member | ⟨side, rfl⟩
      · exact e.written_kinds legal.written k member
      · cases side <;> exact ⟨trivial, rfl⟩
    have clean := clean_system written
      fun s n name => Expr.reads_called legal.written legal.wellFormed grouped name n
    obtain ⟨p, cells, load, -, -, shows, works, kinds, fresh⟩ :=
      exists_start (by simp) clean properties
    exact ⟨p, same ▸ load, Machine.breaks_of_called legal grouped shows works kinds fresh⟩
  · have negated : e.first = .operator .negate :=
      Decidable.byContradiction fun other => start ⟨grouped, other⟩
    have same : printing e =
        String.ofList (lineText (.keyword .system :: (e.lessened "println").kinds)) := by
      rw [printing]
      exact congrArg _ (lineText_congr (by simp [Expr.lexemes_lessened "println" negated]))
    have clean : Clean (.keyword .system :: (e.lessened "println").kinds) :=
      clean_keyword (legal.lessened (by decide) negated)
    obtain ⟨p, cells, load, -, -, shows, works, kinds, fresh⟩ :=
      exists_start (by simp) clean properties
    exact ⟨p, same ▸ load, Machine.breaks_of_lessened legal negated shows works kinds fresh⟩

/-- Behind `system println` an expression that can be assigned is printed exactly if it starts with
neither `(` nor `-`.  Otherwise the script ends with an error. -/
theorem println_iff (named : Lexeme.isName x = true) (legal : e.Legal)
    (properties : List (String × String))
    (binds : ∃ fuel m, runScript fuel (assigning x e).source { properties } = .ok (m, none) ∧
      m.finished = true ∧ m.value? x = some v) :
    ((∃ fuel m, runScript fuel (printing e) { properties } = .ok (m, none) ∧
        m.finished = true ∧ m.sink.text = v.text ++ "\n") ↔ e.StartsPlain) ∧
      (¬ e.StartsPlain →
        ∃ fuel m err, runScript fuel (printing e) { properties } = .ok (m, some (.error err))) := by
  obtain ⟨fuel, m, ran, finished, bound⟩ := binds
  have value := eval_of_assigning named legal ran finished bound
  refine ⟨⟨?_, ?_⟩, ?_⟩
  · rintro ⟨fuel, m, ran, finished, -⟩
    refine Decidable.byContradiction fun start => ?_
    obtain ⟨p, load, breaks⟩ := printing_breaks legal start properties
    exact (finishes_of_runScript load ran finished).not_breaks breaks
  · intro plain
    obtain ⟨p, m, load, finishes, sink⟩ := printing_finishes legal plain value properties
    obtain ⟨fuel, ran⟩ := exists_runScript_of_finishes load finishes sink
    exact ⟨fuel, m, ran, finishes.1, sink.text⟩
  · intro start
    obtain ⟨p, load, breaks⟩ := printing_breaks legal start properties
    exact exists_runScript_of_breaks load breaks

def compared : Expr :=
  .between .and (.before .not (.literal (.bool false)))
    (.between .equal
      (.between .add (.literal (.int 2)) (.between .mul (.literal (.int 3))
        (.group (.between .sub (.literal (.int 4)) (.literal (.int 1))))))
      (.literal (.int 11)))

theorem exists_runScript (fuel : Nat) {source : String}
    (ran : (runScript fuel source {}).toOption.map
      (fun r => (r.1.finished, r.1.value? x, r.2)) = some (true, some v, none)) :
    ∃ fuel m, runScript fuel source {} = .ok (m, none) ∧ m.finished = true ∧
      m.value? x = some v := by
  obtain ⟨⟨m, stop⟩, result, same⟩ := Option.map_eq_some_iff.1 ran
  simp only [Prod.mk.injEq] at same
  obtain ⟨finished, bound, rfl⟩ := same
  exact ⟨fuel, m, Except.toOption_eq_some.1 result, finished, bound⟩

theorem println_compared :
    compared.Legal ∧
      (∃ fuel m, runScript fuel (assigning "x" compared).source {} = .ok (m, none) ∧
        m.finished = true ∧ m.value? "x" = some (.bool true)) ∧
      ∃ fuel m, runScript fuel (printing compared) {} = .ok (m, none) ∧ m.finished = true ∧
        m.sink.text = "true\n" := by
  have legal : compared.Legal := by decide +kernel
  have binds : ∃ fuel m, runScript fuel (assigning "x" compared).source {} = .ok (m, none) ∧
      m.finished = true ∧ m.value? "x" = some (.bool true) :=
    exists_runScript 20 (by decide +kernel)
  exact ⟨legal, binds, (println_iff (by decide) legal [] binds).1.2 (by decide)⟩

def tripled : Expr :=
  .between .mul (.group (.between .add (.literal (.int 1)) (.literal (.int 2)))) (.literal (.int 3))

def raised : Expr :=
  .between .add (.before .negate (.literal (.int 2))) (.literal (.int 3))

/-- Both expressions can be assigned, and neither is printed. -/
theorem println_stops :
    (printing tripled = "system println ( 1 + 2 ) * 3\n" ∧
        printing raised = "system println - 2 + 3\n") ∧
      ∀ e v, (e = tripled ∧ v = .int 9) ∨ (e = raised ∧ v = .int 1) →
        e.Legal ∧
        (∃ fuel m, runScript fuel (assigning "x" e).source {} = .ok (m, none) ∧
          m.finished = true ∧ m.value? "x" = some v) ∧
        ∀ fuel m, runScript fuel (printing e) {} = .ok (m, none) → m.finished = false := by
  refine ⟨by decide +kernel, fun e v he => ?_⟩
  have legal : e.Legal := by
    rcases he with ⟨rfl, -⟩ | ⟨rfl, -⟩ <;> decide +kernel
  have start : ¬ e.StartsPlain := by
    rcases he with ⟨rfl, -⟩ | ⟨rfl, -⟩ <;> decide
  refine ⟨legal, ?_, fun fuel m ran => ?_⟩
  · rcases he with ⟨rfl, rfl⟩ | ⟨rfl, rfl⟩ <;>
      exact exists_runScript 20 (by decide +kernel)
  · obtain ⟨p, load, breaks⟩ := printing_breaks legal start []
    refine Bool.eq_false_iff.2 fun finished => ?_
    exact (finishes_of_runScript load ran finished).not_breaks breaks

end

end LineScript
