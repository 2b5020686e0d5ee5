import LineScript.Proofs.Structured.Statements

/-!
# Blocks and branches

`Implements p n i j run` says that the lines of a program from `i` up to `j` do what `run` says: a
machine before line `i` comes to line `j`, or to a `break` or `continue` that is on its way to the
innermost loop.  Blocks and branches implement what they mean if their parts do.
-/

namespace LineScript

def Within (loops : List Loop) (j : Nat) : Prop :=
  ∀ loop rest, loops = loop :: rest → j ≤ loop.body.closing.line

theorem Within.le {loops : List Loop} {j k : Nat} (within : Within loops k) (le : j ≤ k) :
    Within loops j :=
  fun loop rest same => Nat.le_trans le (within loop rest same)

def Program.NoElseAt (p : Program) (i : Nat) : Prop :=
  ∀ line, p.lines[i]? = some line → line.kinds.head? ≠ some (.keyword .else)

namespace Machine

/-- A signal is the only token of the line.  The variables are those of the environment up to scopes
that the loop is going to close. -/
def Signals (m : Machine) (p : Program) (s : Signal) (env : Env) (loops : List Loop) : Prop :=
  ∃ i x symbols, m.WorksOn i [x] .statement ∧ x.token.kind = .signal s ∧
    m.Shows p { env with symbols } loops ∧
    ∀ k ≤ env.symbols.depth, symbols.unwind k = env.symbols.unwind k

def Ends (p : Program) (j : Nat) (loops : List Loop) : Ending → Env → Machine → Prop
  | .normal, env, m => m.Arrives p j env loops
  | .signal s, env, m => m.Signals p s env loops

theorem Signals.pop {m : Machine} {p : Program} {s : Signal} {env : Env} {loops : List Loop}
    (signals : m.Signals p s env loops) (nested : 0 < env.symbols.depth) :
    m.Signals p s env.pop loops := by
  obtain ⟨i, x, symbols, works, kind, shows, same⟩ := signals
  refine ⟨i, x, symbols, works, kind, shows, ?_⟩
  intro k hk
  simp only [Env.pop, Symbols.depth_pop] at hk ⊢
  rw [same k (by omega), Symbols.unwind_of_lt (by omega)]

end Machine

open Machine

/-- The lines from `i` up to `j` do what `run` says. -/
def Implements (p : Program) (n i j : Nat) (run : Env → Result) : Prop :=
  ∀ (m : Machine) (env : Env) (loops : List Loop), m.Arrives p i env loops → Within loops j →
    m.Meets n (Ends p j loops) (run env)

theorem implements_nil (p : Program) (n i : Nat) : Implements p n i i (.done .normal) :=
  fun m _ _ arrives _ => ⟨0, m, rfl, arrives⟩

theorem Implements.andThen {p : Program} {n i j k : Nat} {first next : Env → Result}
    (hfirst : Implements p n i j first) (hnext : Implements p n j k next) (le : j ≤ k) :
    Implements p n i k fun env => (first env).andThen next := by
  intro m env loops arrives within
  refine (hfirst m env loops arrives (within.le le)).andThen ?_ ?_
  · intro env' m' _ arrives'
    exact hnext m' env' loops arrives' within
  · intro s env' m' _ signals
    exact signals

section

variable {p : Program} {n i j : Nat} {m : Machine} {env : Env} {loops : List Loop}

theorem Machine.Arrives.works {line : Line} (arrives : m.Arrives p i env loops)
    (found : p.lines[i]? = some line) : m.WorksOn i line.cells .statement := by
  have works := arrives.2
  rw [found] at works
  exact works

/-!
## Lines
-/

theorem implements_assign (loaded : p.Loaded) {a : Assignment} (legal : a.Legal)
    (code : p.CodeAt i [a.kinds]) : Implements p n i (i + 1) a.exec := by
  intro m env loops arrives _
  obtain ⟨line, found, kinds⟩ := code.line
  refine (assigns_meets legal arrives.1 (arrives.works found) kinds
    (loaded.line found).fresh n).further ?_
  rintro ending env' m' - ⟨rfl, shows, x, v, works, kind⟩
  have inert : x.token.kind.isInert = true := by rw [kind]; rfl
  have plain : Action.signalOf? (some x.token) = none := by simp [Action.signalOf?, kind]
  obtain ⟨m'', moved, arrives'⟩ := goToLine_arrives loaded (shows.onLine [] 0) works.running (i + 1)
  have index : (m'.onLine [] 0).work.index = i := works.index
  refine ⟨1, m'', ?_, arrives'⟩
  rw [after_one, next_alone works inert,
    outcome_conclude_statement (m := m'.onLine [] 0) works.aim plain, index, moved]
  rfl

theorem implements_println (loaded : p.Loaded) {operands : List Operand}
    (code : p.CodeAt i [.keyword .system :: .name "println" :: operandKinds operands]) :
    Implements p n i (i + 1) fun env => env.println operands := by
  intro m env loops arrives _
  obtain ⟨line, found, kinds⟩ := code.line
  refine Meets.further
    (println_meets arrives.1 (arrives.works found) kinds (loaded.line found).fresh n) ?_
  rintro ending env' m' - ⟨rfl, shows, works⟩
  obtain ⟨m'', step, arrives'⟩ := next_arrives loaded shows works
  exact ⟨1, m'', by rw [after_one, step], arrives'⟩

theorem implements_signal (s : Signal) (code : p.CodeAt i [[.keyword s.keyword]]) :
    Implements p n i j fun env => .done (.signal s) env := by
  intro m env loops arrives _
  obtain ⟨line, found, kinds⟩ := code.line
  obtain ⟨c, cells, kind⟩ := List.map_eq_singleton_iff.1 kinds
  have works := arrives.works found
  have shows := arrives.1
  rw [cells] at works
  have acts : (Action.perform ⟨[], c, []⟩) = Action.markSignal ⟨[], c, []⟩ s := by
    cases s <;> simp [Action.perform, kind, Signal.keyword, Action.applyKeyword]
  have step := next_first works (.inr rfl)
  rw [Action.outcome_act (by simp [kind, TokenKind.isInert]), acts, Action.markSignal,
    Action.outcome_modify, Except.map_ok_eq] at step
  refine ⟨1, _, (after_one m).trans step, i,
    { ref := m.work.line.nextRef, token := .new (.signal s) m.nextId c.token.line }, env.symbols,
    ⟨works.running, works.index, ?_, works.aim, by simp, by simp⟩, rfl, ?_, fun _ _ => rfl⟩
  · simp [Line.clear, Line.append, Line.newCell, Line.withCells]
  · exact ⟨shows.program, shows.symbols, shows.sink, shows.loops, shows.calls, shows.functions⟩

/-!
## Blocks
-/

theorem next_open (shows : m.Shows p env loops) {brace : Cell}
    (works : m.WorksOn i [brace] .statement) (kind : brace.token.kind = .openBrace) :
    ∃ m', m.next = .ok m' ∧ m'.Shows p env.push loops ∧ m'.WorksOn i [] .statement := by
  have step := next_first works (.inr rfl)
  rw [Action.outcome_act (by simp [kind, TokenKind.isInert, TokenKind.openBrace])] at step
  have removed := outcome_remove_alone (m := { m with work := { m.work with selected := none } })
    (f := ⟨[], brace, []⟩) works.holds.symm rfl rfl
  simp only [Action.perform, kind, TokenKind.openBrace, Action.openBlock, Action.newScope,
    Action.outcome_bind, Action.outcome_get, Except.bind_ok, removed,
    Action.outcome_modify, Except.map_ok_eq] at step
  refine ⟨_, step, ⟨shows.program, ?_, shows.sink, shows.loops, shows.calls, shows.functions⟩,
    ⟨works.running, works.index, rfl, works.aim, .nil, by simp⟩⟩
  simp only [shows.symbols]
  rfl

theorem opens_arrives (loaded : p.Loaded) (shows : m.Shows p env loops) {brace : Cell}
    (works : m.WorksOn i [brace] .statement) (kind : brace.token.kind = .openBrace) :
    ∃ m', m.after 2 = .ok m' ∧ m'.Arrives p (i + 1) env.push loops := by
  obtain ⟨m₁, step, shows₁, works₁⟩ := next_open shows works kind
  obtain ⟨m₂, step', arrives⟩ := next_arrives loaded shows₁ works₁
  exact ⟨m₂, by rw [after_succ, step, Except.bind_ok, after_one, step'], arrives⟩

def Machine.closed (m : Machine) : Machine :=
  { m with
    symbols := m.symbols.pop
    work := { m.work with line := m.work.line.withCells [], selected := none } }

theorem next_close {close : Cell} (works : m.WorksOn i [close] .statement)
    (kind : close.token.kind = .closeBrace) (calls : m.calls = []) :
    m.next = if Action.endsLoop m i then (Action.nextIteration.outcome m.closed).map Prod.snd
      else .ok m.closed := by
  obtain rfl := works.index
  have same : ∀ work : Work,
      Action.endsLoop { m with work } m.work.index = Action.endsLoop m m.work.index :=
    fun _ => rfl
  have step := next_first works (.inr rfl)
  rw [Action.outcome_act (by simp [kind, TokenKind.isInert, TokenKind.closeBrace])] at step
  have removed := outcome_remove_alone (m := { m with work := { m.work with selected := none } })
    (f := ⟨[], close, []⟩) works.holds.symm rfl rfl
  simp only [Action.perform, kind, TokenKind.closeBrace, Action.closeBlock,
    Action.outcome_bind, Action.outcome_get, Except.bind_ok, removed,
    Action.outcome_setSymbols, Action.outcome_emit, same] at step
  rw [step]
  by_cases ends : Action.endsLoop m m.work.index = true
  · rw [if_pos ends, if_pos ends]
    rfl
  · rw [if_neg ends, if_neg ends]
    split
    · rfl
    · rename_i h
      rw [calls] at h
      cases h

theorem Machine.Shows.closed (shows : m.Shows p env loops) : m.closed.Shows p env.pop loops :=
  ⟨shows.program, congrArg Symbols.pop shows.symbols, shows.sink, shows.loops, shows.calls,
    shows.functions⟩

theorem closes_arrives (loaded : p.Loaded) (shows : m.Shows p env loops) {close : Cell}
    (works : m.WorksOn i [close] .statement) (kind : close.token.kind = .closeBrace)
    (within : Within loops (i + 1)) :
    ∃ m', m.after 2 = .ok m' ∧ m'.Arrives p (i + 1) env.pop loops := by
  have ends : Action.endsLoop m i = false := by
    rw [Action.endsLoop, shows.loops]
    cases loops with
    | nil => rfl
    | cons loop rest =>
        have := within loop rest rfl
        have : loop.body.closing.line ≠ i := by omega
        simp [this]
  have step : m.next = .ok m.closed := by
    rw [next_close works kind shows.calls, ends]
    rfl
  obtain ⟨m', step', arrives⟩ := next_arrives (i := i) loaded shows.closed
    ⟨works.running, works.index, rfl, works.aim, .nil, by simp [Machine.closed]⟩
  exact ⟨m', by rw [after_succ, step, Except.bind_ok, after_one, step'], arrives⟩

theorem enclosed_meets (loaded : p.Loaded) {header : List Cell} {brace close : Cell}
    (block : p.BlockAt i header brace j close) {body : Env → Result} (keeps : Keeps body)
    (hbody : Implements p n (i + 1) j body) (shows : m.Shows p env loops)
    (works : m.WorksOn i [brace] .statement) (within : Within loops (j + 1)) :
    m.Meets n (Ends p (j + 1) loops) (enclosed body env) := by
  obtain ⟨m₁, reached, arrives⟩ := opens_arrives loaded shows works block.opening
  obtain ⟨line, found, cells, -⟩ := block.closes
  refine Meets.leave (Meets.after reached
    ((hbody m₁ _ loops arrives (within.le (by omega))).further ?_))
  intro ending env' m' done ends
  cases ending with
  | normal =>
      have works' := Arrives.works ends found
      rw [cells] at works'
      exact ⟨2, closes_arrives loaded ends.1 works' block.closing within⟩
  | signal s =>
      have depth := keeps _ _ _ done
      exact ⟨0, m', rfl, ends.pop (by simp [depth, Env.push])⟩

theorem implements_block (loaded : p.Loaded) {body : Layout} (braced : body.Braced)
    (code : p.CodeAt i ([.openBrace] :: (body.code ++ [[.closeBrace]]))) {run : Env → Result}
    (keeps : Keeps run) (hbody : Implements p n (i + 1) (i + 1 + body.code.length) run) :
    Implements p n i (i + 1 + body.code.length + 1) (enclosed run) := by
  intro m env loops arrives within
  have code' : p.CodeAt i (([] ++ [.openBrace]) :: (body.code ++ [.closeBrace] :: [])) := code
  obtain ⟨header, brace, close, block, kinds⟩ := code'.blockAt loaded (by simp [Braceless]) braced
  obtain rfl := List.map_eq_nil_iff.1 kinds
  obtain ⟨line, found, cells, -⟩ := block.opens
  have works := arrives.works found
  rw [cells] at works
  exact enclosed_meets loaded block keeps hbody arrives.1 works within

/-!
## Branches
-/

/-- The lines from `i` up to `j` are the alternatives of a branch: they are passed over when they
are reached from the block before them, and do what `run` says when they are looked for. -/
structure Continues (p : Program) (n i j : Nat) (run : Env → Result) : Prop where
  passed : ∀ (m : Machine) (env : Env) (loops : List Loop), m.Arrives p i env loops →
    ∃ k m', m.after k = .ok m' ∧ m'.Arrives p j env loops
  chosen : ∀ (m : Machine) (env : Env) (loops : List Loop) (close : Position),
    p.following close = .ok (p.firstFrom? i) → m.Shows p env loops → m.finished = false →
    Within loops j → ∃ target m', Action.elseBranch p close = .ok target ∧
      (Action.goTo target).outcome m = .ok ((), m') ∧ m'.Meets n (Ends p j loops) (run env)

/-- A reduced `if` goes to its block or looks for an alternative. -/
theorem outcome_branch (shows : m.Shows p env loops) {f : Focus} {header post : List Cell}
    {brace close x : Cell} (block : p.BlockAt i header brace j close) {before : List Cell}
    (here : header = before ++ f.cell :: post) (index : m.work.index = i)
    (after : f.after = [x, brace]) (operand : x.token.kind.isOperand = true) :
    (Action.branch f).outcome m =
      (m.valueOf x.token).bind fun v =>
        match v with
        | .bool true => (Action.goTo (some { line := i, token := brace.ref })).outcome m
        | .bool false =>
            (orFault (Action.elseBranch p { line := j, token := close.ref })).bind fun target =>
              (Action.goTo target).outcome m
        | other => .error (.at f.cell.token.line (.mismatch (.condition other))) := by
  obtain rfl := shows.program
  obtain rfl := index
  have start : m.program.blockStart (m.positionOf f.cell) =
      .ok { line := m.work.index, token := brace.ref } := block.blockStart here
  simp only [Action.branch, Action.takeBranch, Action.rightOperand, Focus.next?, after,
    List.head?_cons,
    List.tail_cons, Action.outcome_bind, Action.outcome_asOperand m operand, Except.bind_ok,
    block.opening, ne_eq, not_true, if_false, Action.outcome_valueOf]
  cases m.valueOf x.token with
  | error stop => rfl
  | ok v =>
      simp only [Except.map_ok_eq, Except.bind_ok]
      cases v with
      | bool taken =>
          simp only [Action.outcome_bind, Action.outcome_get, Except.bind_ok,
            Action.outcome_ofExcept, start, Except.map_ok_eq, Action.outcome_emit]
          cases taken with
          | true => rfl
          | false =>
              simp only [Bool.false_eq_true, if_false, Action.outcome_bind,
                Action.outcome_ofExcept, block.matched, Except.map_ok_eq, Except.bind_ok,
                Action.outcome_ofFault]
              cases orFault (Action.elseBranch m.program { line := j, token := close.ref }) <;> rfl
      | _ => rfl

/-- A machine at an `if` does what the branch says. -/
theorem branched_meets (loaded : p.Loaded) {e : Expr} (legal : e.Legal) {k : Nat}
    (before : List Cell) {cells : List Cell} {ic brace close : Cell}
    (block : p.BlockAt i (before ++ ic :: cells) brace j close)
    (kind : ic.token.kind = .keyword .if) (kinds : cells.map (fun c => c.token.kind) = e.kinds)
    {body rest : Env → Result} (keeps : Keeps body) (hbody : Implements p n (i + 1) j body)
    (hrest : Continues p n (j + 1) k rest) (le : j + 1 ≤ k) (shows : m.Shows p env loops)
    (works : m.WorksOn i (ic :: cells ++ [brace]) .statement) (within : Within loops k) :
    m.Meets n (Ends p k loops) (branched e body rest env) := by
  obtain ⟨line, found, lineCells, lineLoaded⟩ := block.opens
  have fresh : ∀ c ∈ ic :: cells ++ [brace], c.Fresh := by
    intro c hc
    refine lineLoaded.fresh c ?_
    rw [lineCells]
    simp only [List.mem_append, List.mem_cons] at hc ⊢
    rcases hc with (rfl | hc) | hc <;> simp_all
  have rankI : ic.token.priority = Priority.deferred := by
    rw [(fresh ic (by simp)).1, kind]
    rfl
  have rankB : brace.token.priority = Priority.inert := by
    rw [(fresh brace (by simp)).1, block.opening]
    rfl
  have head : ∀ c, [ic].head? = some c → c.token.kind.isScopeBracket = false := by
    intro c hc
    cases hc
    rw [kind]
    rfl
  rw [branched]
  rcases evaluates legal shows [ic] [brace] works kinds
    (fun c hc => fresh c (by simp [hc])) (by simp [rankI, rankB, Priority.deferred, Priority.inert])
    head (by simp [block.opening, TokenKind.openBrace]) with
    ⟨cause, failed, breaks⟩ | ⟨k₁, m₁, x, reached, shows₁, works₁, reduced⟩
  · rw [Env.test_eq, failed]
    exact breaks
  · -- The condition is reduced, so the `if` is what acts.
    have low := reduced.idle
    have step := next_chosen (f := ⟨[], ic, [x, brace]⟩) (works₁.ready head)
      (by rw [works₁.holds]; rfl) (by rw [works₁.holds]; exact head)
      (by
        refine ⟨by simp, ?_⟩
        intro c hc
        simp only [List.mem_cons, List.mem_nil_iff, or_false] at hc
        rcases hc with rfl | rfl
        · rw [rankI]
          exact Int.le_of_lt low
        · rw [rankI, rankB]
          decide)
    rw [Action.outcome_act (by simp [kind, TokenKind.isInert])] at step
    simp only [Action.perform, kind, Action.applyKeyword] at step
    rw [outcome_branch (f := ⟨[], ic, [x, brace]⟩) shows₁ block rfl works₁.index rfl
      reduced.operand] at step
    refine Meets.after reached ?_
    rcases reduced.test with ⟨taken, tested, value⟩ | ⟨cause, v, tested, value, other⟩ |
      ⟨cause, err, tested, value⟩
    · rw [tested]
      rw [value, Except.bind_ok] at step
      cases taken with
      | true =>
          obtain ⟨m₂, moved, shows₂, works₂⟩ := goTo_within shows₁ works₁.running found
            lineLoaded (before ++ ic :: cells) lineCells
          have step₂ : m₁.next = .ok m₂ := by
            rw [step, moved]
            rfl
          refine Meets.next step₂ ((enclosed_meets loaded block keeps hbody shows₂ works₂
            (within.le le)).further ?_)
          intro ending env' m' _ ends
          cases ending with
          | normal => exact hrest.passed m' env' loops ends
          | signal s => exact ⟨0, m', rfl, ends⟩
      | false =>
          obtain ⟨target, m₂, found₂, moved, meets⟩ := hrest.chosen m₁ env loops _
            block.following shows₁ works₁.running within
          have step₂ : m₁.next = .ok m₂ := by
            rw [step]
            simp only [found₂, orFault, Except.mapError_ok_eq, Except.bind_ok, moved]
            rfl
          exact Meets.next step₂ meets
    · rw [tested]
      rw [value, Except.bind_ok] at step
      cases v with
      | bool b => exact absurd rfl (other b)
      | _ => exact Breaks.of_next step
    · rw [tested]
      rw [value] at step
      exact Breaks.of_next step

theorem passElse_arrives (loaded : p.Loaded) {cells : List Cell} {ec brace close : Cell}
    (block : p.BlockAt i (ec :: cells) brace j close) (kind : ec.token.kind = .keyword .else)
    (arrives : m.Arrives p i env loops) :
    ∃ m', m.next = .ok m' ∧ m'.Arrives p (j + 1) env loops := by
  obtain ⟨line, found, lineCells, lineLoaded⟩ := block.opens
  have works := arrives.works found
  have shows := arrives.1
  have fresh := lineLoaded.fresh
  rw [lineCells] at works fresh
  have step := next_control works fresh (by rw [kind]; rfl) (by rw [kind]; rfl)
  rw [Action.outcome_act (by simp [kind, TokenKind.isInert])] at step
  obtain ⟨m', moved, arrives'⟩ := goTo_arrives loaded shows works.running (j + 1)
  refine ⟨m', ?_, arrives'⟩
  rw [step]
  obtain rfl := shows.program
  obtain rfl := works.index
  have extent := block.blockAfter [] rfl
  simp only [Action.perform, kind, Action.applyKeyword, Action.passElse, Action.outcome_bind,
    Action.outcome_get, Except.bind_ok, Action.outcome_ofExcept, positionOf, extent,
    Except.map_ok_eq, Action.outcome_ofFault, block.following, orFault,
      Except.mapError_ok_eq, moved]

theorem elseBranch_noElse (loaded : p.Loaded) {close : Position}
    (after : p.following close = .ok (p.firstFrom? i)) (noElse : p.NoElseAt i) :
    Action.elseBranch p close = .ok (p.firstFrom? i) := by
  rw [Action.elseBranch, after]
  rw [Program.firstFrom?_eq loaded]
  cases found : p.lines[i]? with
  | none => rfl
  | some line =>
      have lineLoaded := loaded.line found
      cases cells : line.cells with
      | nil => exact absurd cells lineLoaded.filled
      | cons c cs =>
          have kind : c.token.kind ≠ .keyword .else := by
            have := noElse line found
            simpa [Line.kinds, cells] using this
          have token : p.tokenAt { line := i, token := c.ref } = .ok c.token := by
            simp [Program.tokenAt, Program.lineAt_eq found, Line.get,
              lineLoaded.focus [] cells]
          simp [Program.headOf, cells, token, kind]

theorem elseBranch_else (loaded : p.Loaded) {close : Position}
    (after : p.following close = .ok (p.firstFrom? i)) {line : Line}
    (found : p.lines[i]? = some line) {ec c : Cell} {cells : List Cell}
    (lineCells : line.cells = ec :: c :: cells) (kind : ec.token.kind = .keyword .else) :
    Action.elseBranch p close = .ok (some { line := i, token := c.ref }) := by
  have focus := (loaded.line found).focus [] lineCells
  have token : p.tokenAt { line := i, token := ec.ref } = .ok ec.token := by
    simp [Program.tokenAt, Program.lineAt_eq found, Line.get, focus]
  have next : p.following { line := i, token := ec.ref } =
      .ok (some { line := i, token := c.ref }) := by
    simp [Program.following, Program.lineAt_eq found, Line.next, focus, Focus.next?]
  rw [Action.elseBranch, after, Program.firstFrom?_eq loaded, found]
  simp [Program.headOf, lineCells, token, kind, next]

theorem continues_none (loaded : p.Loaded) (noElse : p.NoElseAt i) :
    Continues p n i i (.done .normal) where
  passed := fun m _ _ arrives => ⟨0, m, rfl, arrives⟩
  chosen := by
    intro m env loops close after shows running _
    obtain ⟨m', moved, arrives⟩ := goTo_arrives loaded shows running i
    exact ⟨_, m', elseBranch_noElse loaded after noElse, moved, 0, m', rfl, arrives⟩

theorem continues_otherwise (loaded : p.Loaded) {ec brace close : Cell}
    (block : p.BlockAt i [ec] brace j close) (kind : ec.token.kind = .keyword .else)
    {body : Env → Result} (keeps : Keeps body) (hbody : Implements p n (i + 1) j body) :
    Continues p n i (j + 1) (enclosed body) where
  passed := by
    intro m env loops arrives
    obtain ⟨m', step, arrives'⟩ := passElse_arrives loaded block kind arrives
    exact ⟨1, m', by rw [after_one, step], arrives'⟩
  chosen := by
    intro m env loops close after shows running within
    obtain ⟨line, found, lineCells, lineLoaded⟩ := block.opens
    obtain ⟨m', moved, shows', works⟩ := goTo_within shows running found lineLoaded [ec]
      lineCells
    exact ⟨_, m', elseBranch_else loaded after found lineCells kind, moved,
      enclosed_meets loaded block keeps hbody shows' works within⟩

theorem continues_elseIf (loaded : p.Loaded) {e : Expr} (legal : e.Legal) {k : Nat}
    {cells : List Cell} {ec ic brace close : Cell}
    (block : p.BlockAt i (ec :: ic :: cells) brace j close)
    (elseKind : ec.token.kind = .keyword .else) (kind : ic.token.kind = .keyword .if)
    (kinds : cells.map (fun c => c.token.kind) = e.kinds) {body rest : Env → Result}
    (keeps : Keeps body) (hbody : Implements p n (i + 1) j body)
    (hrest : Continues p n (j + 1) k rest) (le : j + 1 ≤ k) :
    Continues p n i k (branched e body rest) where
  passed := by
    intro m env loops arrives
    obtain ⟨m₁, step, arrives₁⟩ := passElse_arrives loaded block elseKind arrives
    obtain ⟨k', m₂, reached, arrives₂⟩ := hrest.passed m₁ env loops arrives₁
    exact ⟨k' + 1, m₂, by rw [after_succ, step]; exact reached, arrives₂⟩
  chosen := by
    intro m env loops close after shows running within
    obtain ⟨line, found, lineCells, lineLoaded⟩ := block.opens
    obtain ⟨m', moved, shows', works⟩ := goTo_within shows running found lineLoaded [ec]
      lineCells
    exact ⟨_, m', elseBranch_else loaded after found lineCells elseKind, moved,
      branched_meets loaded legal [ec] block kind kinds keeps hbody hrest le shows'
        works within⟩

theorem implements_branch (loaded : p.Loaded) {e : Expr} (legal : e.Legal) {k : Nat}
    {cells : List Cell} {ic brace close : Cell} (block : p.BlockAt i (ic :: cells) brace j close)
    (kind : ic.token.kind = .keyword .if) (kinds : cells.map (fun c => c.token.kind) = e.kinds)
    {body rest : Env → Result} (keeps : Keeps body) (hbody : Implements p n (i + 1) j body)
    (hrest : Continues p n (j + 1) k rest) (le : j + 1 ≤ k) :
    Implements p n i k (branched e body rest) := by
  intro m env loops arrives within
  obtain ⟨line, found, lineCells, lineLoaded⟩ := block.opens
  have works := arrives.works found
  rw [lineCells] at works
  exact branched_meets loaded legal [] block kind kinds keeps hbody hrest le arrives.1
    works within

end

end LineScript
